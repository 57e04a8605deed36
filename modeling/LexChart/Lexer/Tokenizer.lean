import LexChart.Diagnostic
import LexChart.Lexer.Lexeme
import LexChart.Lexer.Scanner
set_option autoImplicit false

/-!
# Cutting a text into lexemes

The longest piece that some rule matches is cut off the text, again and again.  A match of ignored
rules only is dropped; every other one is a lexeme whose candidates are the rules that match it and
are not ignored.  Where no rule matches, one character is cut off and reported, and the caller
decides whether to go on.

To find the longest match a scanner reads on until it is stuck, and so may read characters beyond
it.  These are given back, in front of those given back before, and are read again.
-/

namespace LexChart

/-- The text that is left, and its place in the whole. -/
structure Tokenizer where
  /-- The characters that were given back, the next one first. -/
  returned : List Char := []
  /-- The characters that were never read. -/
  stream : List Char
  cursor : Cursor := .start
  deriving DecidableEq

namespace Tokenizer

/-- The tokenizer before a text. -/
def ofText (text : List Char) : Tokenizer := { stream := text }

/-- The text that is left. -/
def rest (t : Tokenizer) : List Char := t.returned ++ t.stream

/-- The place reached in the text. -/
def span (t : Tokenizer) : Span := .point t.cursor

/-- Takes the next character, one that was given back if there is any. -/
def nextChar (t : Tokenizer) : Option (Char × Tokenizer) :=
  match t.returned with
  | c :: returned => some (c, { t with returned })
  | [] =>
    match t.stream with
    | c :: stream => some (c, { t with stream })
    | [] => none

/-- Gives characters back, in front of those given back before. -/
def giveBack (t : Tokenizer) (chars : List Char) : Tokenizer :=
  { t with returned := chars ++ t.returned }

/-- Moves the cursor past some characters. -/
def commit (t : Tokenizer) (chars : List Char) : Tokenizer :=
  { t with cursor := t.cursor.advanceAll chars }

@[simp] theorem rest_giveBack (t : Tokenizer) (chars : List Char) :
    (t.giveBack chars).rest = chars ++ t.rest := List.append_assoc chars t.returned t.stream

@[simp] theorem cursor_giveBack (t : Tokenizer) (chars : List Char) :
    (t.giveBack chars).cursor = t.cursor := rfl

@[simp] theorem rest_commit (t : Tokenizer) (chars : List Char) :
    (t.commit chars).rest = t.rest := rfl

@[simp] theorem cursor_commit (t : Tokenizer) (chars : List Char) :
    (t.commit chars).cursor = t.cursor.advanceAll chars := rfl

theorem rest_of_nextChar_none {t : Tokenizer} (h : t.nextChar = none) : t.rest = [] := by
  obtain ⟨returned, stream, cursor⟩ := t
  cases returned <;> cases stream <;> simp [nextChar, rest] at h ⊢

theorem rest_of_nextChar_some {t behind : Tokenizer} {c : Char}
    (h : t.nextChar = some (c, behind)) : t.rest = c :: behind.rest ∧ behind.cursor = t.cursor := by
  obtain ⟨returned, stream, cursor⟩ := t
  cases returned <;> cases stream <;> simp [nextChar] at h <;> obtain ⟨rfl, rfl⟩ := h <;>
    simp [rest]

/-- Feeds characters to a scanner until it refuses one or none is left.  What was read comes with the
scanner, the refused character as well; `reversed` is what was read before, the last one first. -/
def readAhead (lexer : Lexer) (t : Tokenizer) (s : Scanner) (reversed : List Char) :
    Except Fault (Scanner × List Char × Tokenizer) :=
  match _h : t.nextChar with
  | none => .ok (s, reversed.reverse, t)
  | some (c, behind) => do
    let (s, accepted) ← s.scan lexer c
    if accepted then behind.readAhead lexer s (c :: reversed)
    else pure (s, (c :: reversed).reverse, behind)
termination_by t.rest.length
decreasing_by
  have hrest := (rest_of_nextChar_some _h).1
  simp [hrest]

/-- What is read is taken off the text. -/
theorem rest_of_readAhead {lexer : Lexer} {s s' : Scanner} {reversed read : List Char}
    {t ahead : Tokenizer} (h : t.readAhead lexer s reversed = .ok (s', read, ahead)) :
    read ++ ahead.rest = reversed.reverse ++ t.rest ∧ ahead.cursor = t.cursor := by
  fun_induction t.readAhead lexer s reversed with
  | case1 t s reversed hnone =>
    cases h
    exact ⟨rfl, rfl⟩
  | case2 t s reversed c behind hsome ih =>
    obtain ⟨hrest, hcursor⟩ := rest_of_nextChar_some hsome
    cases hscan : s.scan lexer c with
    | error fault =>
      rw [hscan] at h
      cases h
    | ok answer =>
      obtain ⟨next, accepted⟩ := answer
      rw [hscan] at h
      cases accepted with
      | true =>
        obtain ⟨hread, hahead⟩ := ih next h
        rw [hread, hahead, hrest, List.reverse_cons, List.append_assoc]
        exact ⟨rfl, hcursor⟩
      | false =>
        cases h
        rw [hrest, List.reverse_cons, List.append_assoc]
        exact ⟨rfl, hcursor⟩

/-- The next lexeme or bad character, and the tokenizer behind it.  Nothing is found once the text is
used up. -/
def next (lexer : Lexer) (t : Tokenizer) :
    Except Fault (Option (Except Diagnostic Lexeme) × Tokenizer) :=
  match _h : t.readAhead lexer .fresh [] with
  | .error fault => .error fault
  | .ok (_, [], ahead) => .ok (none, ahead)
  | .ok (s, first :: others, ahead) =>
    match s.longestMatch with
    | none =>
      let behind := (ahead.giveBack others).commit [first]
      .ok (some (.error ⟨.badToken first, some ⟨ahead.cursor, behind.cursor⟩⟩), behind)
    | some (spelling, rules) =>
      -- What is matched has a first character.
      let length := spelling.length - 1
      let behind := (ahead.giveBack (others.drop length)).commit (first :: others.take length)
      match rules.filter fun rule => !lexer.isIgnored rule with
      | [] => next lexer behind
      | candidates =>
        .ok (some (.ok (.ofCandidates candidates spelling ⟨ahead.cursor, behind.cursor⟩)), behind)
termination_by t.rest.length
decreasing_by
  have hrest := congrArg List.length (rest_of_readAhead _h).1
  simp at hrest ⊢
  omega

/-- The lexemes and bad characters of a text, at most `limit` of them, each with the tokenizer
behind it, and the tokenizer behind the last call of `next`. -/
def itemsWithin (lexer : Lexer) :
    Nat → Tokenizer → Except Fault (List (Except Diagnostic Lexeme × Tokenizer) × Tokenizer)
  | 0, t => .ok ([], t)
  | limit + 1, t => do
    match ← t.next lexer with
    | (none, t) => pure ([], t)
    | (some item, t) =>
      let (items, last) ← itemsWithin lexer limit t
      pure ((item, t) :: items, last)

/-- All lexemes and bad characters of a text, each with the tokenizer behind it, and the tokenizer
behind the whole text.  Each of them is at least one character long. -/
def items (lexer : Lexer) (t : Tokenizer) :
    Except Fault (List (Except Diagnostic Lexeme × Tokenizer) × Tokenizer) :=
  itemsWithin lexer (t.rest.length + 1) t

end Tokenizer

end LexChart
