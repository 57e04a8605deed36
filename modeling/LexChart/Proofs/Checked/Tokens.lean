import LexChart.Proofs.Checked.Lexer
import LexChart.Proofs.Lexer.Tokens
set_option autoImplicit false

/-!
# Cutting a text without breaking off

The characters that a scanner has read are cut in two, by their number: what belongs to the item and
what is given back.  A checked step breaks off where there are fewer characters than that, and where
matches are left to be dropped once the limit on their number is reached.

A match is a beginning of what was read, and every match that is dropped shortens the text.
-/

namespace LexChart.Checked

/-- The first characters, which have to be that many, and the others. -/
def split? (chars : List Char) (length : Nat) : Option (List Char × List Char) :=
  if length ≤ chars.length then some (chars.splitAt length) else none

/-- `Scanner.scan`, checked. -/
def scan (lexer : Lexer) (s : Scanner) (c : Char) : Option (Scanner × Bool) :=
  match s.state with
  | none => some (s, false)
  | some id => do
    match ← step lexer id c with
    | none => some ({ s with state := none }, false)
    | some t => some (s.follow t c, true)

/-- `Tokenizer.readAhead`, checked. -/
def readAhead (lexer : Lexer) (t : Tokenizer) (s : Scanner) (reversed : List Char) :
    Option (Scanner × List Char × Tokenizer) :=
  match _h : t.nextChar with
  | none => some (s, reversed.reverse, t)
  | some (c, behind) => do
    let (s, accepted) ← scan lexer s c
    if accepted then readAhead lexer behind s (c :: reversed)
    else some (s, (c :: reversed).reverse, behind)
termination_by t.rest.length
decreasing_by
  have hrest := (Tokenizer.rest_of_nextChar_some _h).1
  simp [hrest]

/-- `Tokenizer.next`, which has to find an item or the end of the text before the limit. -/
def next (lexer : Lexer) :
    Nat → Tokenizer → Option (Option (Except Diagnostic Lexeme) × Tokenizer)
  | 0, _ => none
  | limit + 1, t => do
    let (s, read, ahead) ← readAhead lexer t .fresh []
    if read.isEmpty then some (none, ahead)
    else
      match s.longestMatch with
      | none => do
        let (cut, back) ← split? read 1
        let first ← read[0]?
        let behind := (ahead.giveBack back).commit cut
        some (some (.error ⟨.badToken first, some ⟨ahead.cursor, behind.cursor⟩⟩), behind)
      | some (spelling, rules) => do
        let (cut, back) ← split? read spelling.length
        let behind := (ahead.giveBack back).commit cut
        match rules.filter fun rule => !lexer.isIgnored rule with
        | [] => next lexer limit behind
        | candidates =>
          let l := Lexeme.ofCandidates candidates spelling ⟨ahead.cursor, behind.cursor⟩
          some (some (.ok l), behind)

theorem split?_append (xs ys : List Char) : split? (xs ++ ys) xs.length = some (xs, ys) := by
  unfold split?
  rw [if_pos (by simp)]
  simp

section

variable {lexer : Lexer} {rules : LexRules}

theorem scan_eq (htables : lexer.tables = .ofDfa lexer.dfa) {s : Scanner} {c : Char}
    {found : Scanner × Bool} (h : s.scan lexer c = .ok found) : scan lexer s c = some found := by
  unfold Scanner.scan at h
  unfold scan
  cases hstate : s.state with
  | none =>
    rw [hstate] at h
    cases h
    rfl
  | some id =>
    rw [hstate] at h
    obtain ⟨t, ht, h⟩ := bind_eq_ok_iff.1 h
    refine Option.bind_eq_some_iff.2 ⟨t, step_eq htables ht, ?_⟩
    cases t with
    | none =>
      cases h
      rfl
    | some t =>
      cases h
      rfl

theorem readAhead_eq (htables : lexer.tables = .ofDfa lexer.dfa) {t : Tokenizer} {s : Scanner}
    {reversed : List Char} {found : Scanner × List Char × Tokenizer}
    (h : t.readAhead lexer s reversed = .ok found) :
    readAhead lexer t s reversed = some found := by
  fun_induction t.readAhead lexer s reversed with
  | case1 t s reversed hnone =>
    cases h
    rw [readAhead]
    split
    · rfl
    · rename_i hsome
      rw [hnone] at hsome
      cases hsome
  | case2 t s reversed c behind hsome ih =>
    obtain ⟨⟨s', accepted⟩, hscan, h⟩ := bind_eq_ok_iff.1 h
    rw [readAhead]
    split
    · rename_i hnone
      rw [hsome] at hnone
      cases hnone
    · rename_i c' behind' hsome'
      rw [hsome] at hsome'
      cases hsome'
      refine Option.bind_eq_some_iff.2 ⟨(s', accepted), scan_eq htables hscan, ?_⟩
      cases accepted with
      | true => exact ih s' h
      | false =>
        cases h
        rfl

/-- Every match that is dropped shortens the text. -/
theorem next_eq (hruns : lexer.Runs rules) (hdrops : lexer.Drops rules) {limit : Nat}
    {t : Tokenizer} (hlimit : t.rest.length < limit)
    {found : Option (Except Diagnostic Lexeme) × Tokenizer} (h : t.next lexer = .ok found) :
    next lexer limit t = some found := by
  induction limit generalizing t with
  | zero => exact absurd hlimit (Nat.not_lt_zero _)
  | succ limit ih =>
    rw [Tokenizer.next] at h
    unfold next
    split at h
    · cases h
    · rename_i s ahead hread
      cases h
      exact Option.bind_eq_some_iff.2 ⟨_, readAhead_eq hruns.tables_eq hread, rfl⟩
    · rename_i s first others ahead hread
      refine Option.bind_eq_some_iff.2 ⟨_, readAhead_eq hruns.tables_eq hread, ?_⟩
      obtain ⟨hafter, hend, -⟩ := Tokenizer.of_readAhead hruns hread
      have hlongest := hafter.longestMatch hend
      dsimp only [List.isEmpty_cons]
      rw [if_neg Bool.false_ne_true]
      cases hmatch : s.longestMatch with
      | none =>
        rw [hmatch] at h
        cases h
        exact Option.bind_eq_some_iff.2 ⟨_, split?_append [first] others, rfl⟩
      | some longest =>
        obtain ⟨w, captured⟩ := longest
        rw [hmatch] at h hlongest
        obtain ⟨hwithin, -⟩ := hlongest
        obtain ⟨htake, hdrop⟩ :=
          Tokenizer.take_append_drop_of_prefix hwithin.nonempty hwithin.is_prefix
        have hsplit := split?_append w (others.drop (w.length - 1))
        rw [hdrop] at hsplit
        refine Option.bind_eq_some_iff.2 ⟨_, hsplit, ?_⟩
        dsimp only at h ⊢
        obtain ⟨hrest, -⟩ := Tokenizer.behind_longest hruns hdrops hread hmatch rfl
        rw [htake] at h hrest
        generalize captured.filter (fun rule => !lexer.isIgnored rule) = candidates at h ⊢
        cases candidates with
        | nil =>
          have hlength := congrArg List.length hrest
          have hpos := List.length_pos_of_ne_nil hwithin.nonempty
          rw [List.length_append] at hlength
          exact ih (by omega) h
        | cons rule others =>
          cases h
          rfl

end

end LexChart.Checked
