import LexChart.Proofs.Lexer.Tokens
set_option autoImplicit false

/-!
# Nothing of a text is lost

A tokenizer cuts a text into pieces: lexemes, bad characters and matches that are dropped.  However
far a scanner reads ahead and however often the same characters are given back, the pieces follow
each other without a gap, and each of them begins where the cursor stands after all the text before
it.

One call cuts off the matches that it drops, and then one lexeme or one bad character.  Calls one
after the other come to the end of the text, where nothing is found any more.
-/

namespace LexChart

theorem Cursor.advanceAll_append (c : Cursor) (xs ys : List Char) :
    c.advanceAll (xs ++ ys) = (c.advanceAll xs).advanceAll ys := List.foldl_append

/-- A piece that is cut off a text: its characters and what is found for it.  Nothing is found for a
match that is dropped. -/
structure Piece where
  chars : List Char
  found : Option (Except Diagnostic Lexeme)

namespace Piece

/-- What is found for a piece that begins at a cursor. -/
inductive ShownAt (rules : LexRules) (cursor : Cursor) : Piece → Prop where
  | lexeme {w : List Char} {l : Lexeme} : l.spelling = w →
      l.span = ⟨cursor, cursor.advanceAll w⟩ → ShownAt rules cursor ⟨w, some (.ok l)⟩
  | bad (c : Char) : ShownAt rules cursor
      ⟨[c], some (.error ⟨.badToken c, some ⟨cursor, cursor.advanceAll [c]⟩⟩)⟩
  | dropped {w : List Char} : (∃ rule, rules.Matches rule w) → rules.IsCandidates w [] →
      ShownAt rules cursor ⟨w, none⟩

/-- The characters of some pieces. -/
def charsOf (pieces : List Piece) : List Char := pieces.flatMap chars

/-- What is found for some pieces. -/
def itemsOf (pieces : List Piece) : List (Except Diagnostic Lexeme) := pieces.filterMap found

/-- Every piece has characters and is shown where the cursor stands after the pieces before it. -/
def Placed (rules : LexRules) (cursor : Cursor) (pieces : List Piece) : Prop :=
  ∀ before p after, pieces = before ++ p :: after →
    p.chars ≠ [] ∧ p.ShownAt rules (cursor.advanceAll (charsOf before))

@[simp] theorem charsOf_singleton (p : Piece) : charsOf [p] = p.chars := by simp [charsOf]

@[simp] theorem charsOf_append (ps qs : List Piece) :
    charsOf (ps ++ qs) = charsOf ps ++ charsOf qs := by
  simp [charsOf]

@[simp] theorem itemsOf_append (ps qs : List Piece) :
    itemsOf (ps ++ qs) = itemsOf ps ++ itemsOf qs := by
  simp [itemsOf]

variable {rules : LexRules} {cursor : Cursor}

theorem placed_nil : Placed rules cursor [] := by
  intro before p after h
  simp at h

theorem placed_singleton {p : Piece} (hne : p.chars ≠ []) (hshown : p.ShownAt rules cursor) :
    Placed rules cursor [p] := by
  intro before q after h
  cases before with
  | nil =>
    obtain ⟨rfl, -⟩ := List.cons.inj h
    exact ⟨hne, hshown⟩
  | cons first before => simp at h

/-- Pieces that follow others are placed behind the characters of these. -/
theorem Placed.append {ps qs : List Piece} (hps : Placed rules cursor ps)
    (hqs : Placed rules (cursor.advanceAll (charsOf ps)) qs) : Placed rules cursor (ps ++ qs) := by
  intro before p after h
  rcases List.append_eq_append_iff.1 h with ⟨more, rfl, hrest⟩ | ⟨more, rfl, hrest⟩
  · have hplace := hqs more p after hrest
    rwa [← Cursor.advanceAll_append, ← charsOf_append] at hplace
  · cases more with
    | nil =>
      have hplace := hqs [] p after hrest.symm
      rwa [List.append_nil] at hplace
    | cons first more =>
      obtain ⟨rfl, rfl⟩ := List.cons.inj hrest
      exact hps before _ more rfl

end Piece

namespace Tokenizer

open Piece Scanner

variable {lexer : Lexer} {rules : LexRules}

/-- The pieces between two places of a tokenizer: they make up the text between the places. -/
structure Cuts (rules : LexRules) (t : Tokenizer) (pieces : List Piece) (behind : Tokenizer) :
    Prop where
  rest_eq : t.rest = charsOf pieces ++ behind.rest
  cursor_eq : behind.cursor = t.cursor.advanceAll (charsOf pieces)
  placed : Placed rules t.cursor pieces

theorem cuts_nil {t behind : Tokenizer} (hrest : behind.rest = t.rest)
    (hcursor : behind.cursor = t.cursor) : Cuts rules t [] behind :=
  ⟨hrest.symm, hcursor, placed_nil⟩

theorem cuts_singleton {t behind : Tokenizer} {p : Piece} (hrest : t.rest = p.chars ++ behind.rest)
    (hcursor : behind.cursor = t.cursor.advanceAll p.chars) (hne : p.chars ≠ [])
    (hshown : p.ShownAt rules t.cursor) : Cuts rules t [p] behind := by
  refine ⟨?_, ?_, placed_singleton hne hshown⟩
  · rw [charsOf_singleton, hrest]
  · rw [charsOf_singleton, hcursor]

theorem Cuts.append {t between behind : Tokenizer} {ps qs : List Piece}
    (h : Cuts rules t ps between) (k : Cuts rules between qs behind) :
    Cuts rules t (ps ++ qs) behind := by
  refine ⟨?_, ?_, h.placed.append ?_⟩
  · rw [h.rest_eq, k.rest_eq, charsOf_append, List.append_assoc]
  · rw [k.cursor_eq, h.cursor_eq, charsOf_append, Cursor.advanceAll_append]
  · rw [← h.cursor_eq]
    exact k.placed

/-- What is found is found for the last one of the pieces that a call cuts off. -/
theorem next_cuts (hruns : lexer.Runs rules) (hdrops : lexer.Drops rules) (t : Tokenizer) :
    ∃ found behind pieces, t.next lexer = .ok (found, behind) ∧ Cuts rules t pieces behind ∧
      itemsOf pieces = found.toList ∧ (found = none → behind.rest = []) := by
  fun_induction t.next lexer with
  | case1 t fault hread => exact absurd hread (readAhead_ne_error hruns t fault)
  | case2 t s ahead hread =>
    obtain ⟨hafter, hend, hrest, hcursor⟩ := of_readAhead hruns hread
    refine ⟨none, ahead, [], rfl, cuts_nil hrest hcursor, rfl, fun _ => ?_⟩
    exact hend.resolve_left hafter.state_ne_none
  | case3 t s first others ahead hread hmatch behind =>
    obtain ⟨-, -, hrest, hcursor⟩ := of_readAhead hruns hread
    have hstop : behind.cursor = t.cursor.advanceAll [first] := by simp [behind, hcursor]
    refine ⟨_, behind, [⟨[first], some _⟩], rfl, ?_, rfl, fun h => absurd h (by simp)⟩
    refine cuts_singleton ?_ hstop (List.cons_ne_nil _ _) ?_
    · rw [← hrest]
      simp [behind]
    · rw [hstop, hcursor]
      exact .bad first
  | case4 t s first others ahead hread w found hmatch length behind hnone ih =>
    obtain ⟨hsplit, hcursor, hlongest, hcandidates⟩ :=
      behind_longest hruns hdrops hread hmatch (show behind = _ from rfl)
    rw [hnone] at hcandidates
    obtain ⟨item, last, pieces, hnext, hcuts, hitems, hend⟩ := ih
    have hdropped : Cuts rules t [⟨w, none⟩] behind :=
      cuts_singleton hsplit hcursor hlongest.ne_nil (.dropped hlongest.2.1 hcandidates)
    exact ⟨item, last, _, hnext, hdropped.append hcuts, hitems, hend⟩
  | case5 t s first others ahead hread w found hmatch length behind hsome =>
    obtain ⟨hsplit, hcursor, hlongest, -⟩ :=
      behind_longest hruns hdrops hread hmatch (show behind = _ from rfl)
    obtain ⟨-, -, -, hstart⟩ := of_readAhead hruns hread
    refine ⟨_, behind, [⟨w, some _⟩], rfl, ?_, rfl, fun h => absurd h (by simp)⟩
    refine cuts_singleton hsplit hcursor hlongest.ne_nil (.lexeme rfl ?_)
    rw [hcursor, hstart]
    rfl

/-- Calls one after the other find some items, and then nothing. -/
inductive Yields (lexer : Lexer) :
    Tokenizer → List (Except Diagnostic Lexeme) → Tokenizer → Prop where
  | done {t last : Tokenizer} : t.next lexer = .ok (none, last) → Yields lexer t [] last
  | item {t behind last : Tokenizer} {item : Except Diagnostic Lexeme}
      {items : List (Except Diagnostic Lexeme)} : t.next lexer = .ok (some item, behind) →
      Yields lexer behind items last → Yields lexer t (item :: items) last

/-- Pieces for which something is found have characters. -/
theorem Cuts.length_lt {t behind : Tokenizer} {pieces : List Piece}
    (h : Cuts rules t pieces behind) (hne : pieces ≠ []) : behind.rest.length < t.rest.length := by
  cases pieces with
  | nil => exact absurd rfl hne
  | cons p pieces =>
    obtain ⟨hchars, -⟩ := h.placed [] p pieces rfl
    have hpos := List.length_pos_of_ne_nil hchars
    rw [h.rest_eq, List.length_append]
    simp only [charsOf, List.flatMap_cons, List.length_append]
    omega

/-- Calls one after the other come to the end of the text. -/
theorem yields_cuts (hruns : lexer.Runs rules) (hdrops : lexer.Drops rules) (t : Tokenizer) :
    ∃ pieces last, Yields lexer t (itemsOf pieces) last ∧ Cuts rules t pieces last ∧
      last.rest = [] := by
  induction hlength : t.rest.length using Nat.strongRecOn generalizing t with
  | ind length ih =>
    obtain ⟨found, behind, pieces, hnext, hcuts, hitems, hend⟩ := next_cuts hruns hdrops t
    cases found with
    | none =>
      refine ⟨pieces, behind, ?_, hcuts, hend rfl⟩
      rw [hitems]
      exact .done hnext
    | some item =>
      have hne : pieces ≠ [] := by
        rintro rfl
        cases hitems
      obtain ⟨more, last, hyields, hmore, hlast⟩ :=
        ih _ (hlength ▸ hcuts.length_lt hne) behind rfl
      refine ⟨pieces ++ more, last, ?_, hcuts.append hmore, hlast⟩
      rw [itemsOf_append, hitems]
      exact .item hnext hyields

/-- A text is cut into pieces without a gap.  What is found for them is found by calls one after the
other, and then nothing, however often the tokenizer is called.  Each piece is shown where the
cursor stands after the text before it, and in the end the cursor stands after the whole text. -/
theorem pieces_exact (rules : LexRules) (lexer : Lexer) (h : Lexer.ofRules rules = .ok lexer)
    (text : List Char) :
    ∃ pieces last, Yields lexer (ofText text) (itemsOf pieces) last ∧
      last.next lexer = .ok (none, last) ∧ text = charsOf pieces ∧
      (∀ before p after, pieces = before ++ p :: after →
        p.chars ≠ [] ∧ p.ShownAt rules (Cursor.start.advanceAll (charsOf before))) ∧
      last.span = .point (Cursor.start.advanceAll text) := by
  obtain ⟨pieces, last, hyields, hcuts, hlast⟩ :=
    yields_cuts (Lexer.runs_of_ofRules h) (Lexer.drops_of_ofRules h) (ofText text)
  have htext : text = charsOf pieces := by
    have hrest := hcuts.rest_eq
    rwa [hlast, List.append_nil] at hrest
  refine ⟨pieces, last, hyields, next_of_rest_nil hlast, htext, hcuts.placed, ?_⟩
  unfold span
  rw [hcuts.cursor_eq, ← htext]
  rfl

/-- A letter, and spaces and newlines that are dropped. -/
def lined : LexRules := .ofChars [('a', false), (' ', true), ('\n', true)]

/-- A bad character on the second line, behind a letter and what is dropped. -/
theorem pieces_exact_lined : ∃ lexer pieces last, Lexer.ofRules lined = .ok lexer ∧
    Yields lexer (ofText ['a', ' ', '\n', '?']) (itemsOf pieces) last ∧
    charsOf pieces = ['a', ' ', '\n', '?'] ∧ last.span = .point ⟨2, 1⟩ := by
  have hsize : (Lexer.nfaOf lined).size < sizeLimit := by decide
  obtain ⟨lexer, hlexer, -⟩ := Lexer.ofRules_ok hsize
  obtain ⟨pieces, last, hyields, -, htext, -, hspan⟩ :=
    pieces_exact lined lexer hlexer ['a', ' ', '\n', '?']
  exact ⟨lexer, pieces, last, hlexer, hyields, htext.symm, hspan⟩

end Tokenizer

end LexChart
