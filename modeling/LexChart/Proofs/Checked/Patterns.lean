import LexChart.Proofs.Checked.CodePoints
import LexChart.Proofs.Pattern.CharSet
import LexChart.Proofs.Pattern.Leftover
set_option autoImplicit false

/-!
# Reading patterns without breaking off

Patterns are read with complements on code points, and by readers that have to end before a limit on
their number or their depth.  A reading answers with an expression or a rejection, or it breaks off.

The readers answer as those of the library, and leave no more of a text than they are given.  So the
text that is left bounds how many of them are still to come.
-/

namespace LexChart.Checked

open Pattern (Rejection leavesEnd leftover_readQuantifiers length_le_of_leftover)

/-- Readings that may break off. -/
abbrev Reading : Type → Type := ExceptT Rejection Option

/-- The reading that gives an answer. -/
def answered {α : Type} (answer : Except Rejection α) : Reading α := ExceptT.mk (some answer)

@[simp] theorem answered_ok {α : Type} (a : α) : answered (.ok a) = pure a := rfl

@[simp] theorem answered_pure {α : Type} (a : α) : answered (pure a) = pure a := rfl

@[simp] theorem answered_error {α : Type} (r : Rejection) :
    (answered (.error r) : Reading α) = throw r := rfl

/-- A reading goes on as the library does, with what the library has found. -/
theorem answered_bind_eq {α β : Type} {answer : Except Rejection α} {next : α → Reading β}
    {next' : α → Except Rejection β} (h : ∀ a, answer = .ok a → next a = answered (next' a)) :
    (answered answer >>= next) = answered (answer >>= next') := by
  cases answer with
  | error r => rfl
  | ok a => exact h a rfl

theorem answered_bind {α β : Type} (answer : Except Rejection α) (next : α → Except Rejection β) :
    (answered answer >>= fun a => answered (next a)) = answered (answer >>= next) := by
  cases answer <;> rfl

/-! ## Classes -/

/-- The intervals of a class, with a complement on code points. -/
def intervalsOf : CharClass → Option (List Interval)
  | .set intervals true => invert intervals
  | cls => some cls.intervals

theorem intervalsOf_eq (cls : CharClass) : intervalsOf cls = some cls.intervals := by
  unfold intervalsOf
  split
  · exact invert_eq _
  · rfl

/-- `Pattern.classIntervals` with a complement on code points. -/
def classIntervals (intervals : List Interval) (negated : Bool) : Option (List Interval) :=
  if negated then invert intervals else some intervals

theorem classIntervals_eq (intervals : List Interval) (negated : Bool) :
    classIntervals intervals negated = some (Pattern.classIntervals intervals negated) := by
  unfold classIntervals Pattern.classIntervals
  split
  · exact invert_eq intervals
  · rfl

theorem lift_classIntervals (intervals : List Interval) (negated : Bool) :
    (ExceptT.lift (classIntervals intervals negated) : Reading (List Interval)) =
      pure (Pattern.classIntervals intervals negated) := by
  rw [classIntervals_eq]
  rfl

/-! ## Sets -/

/-- `Pattern.readItems` with complements on code points. -/
def readItems (items : List Interval) (start : Option Char) :
    List Char → Reading (List Interval × List Char)
  | [] => throw ⟨.unterminatedSet, []⟩
  | c :: rest =>
    if c = ']' then pure (items, rest)
    else if c = '-' then
      if rest.head? = some ']' then readItems (.single '-' :: items) none rest
      else
        match start, rest with
        | none, rest => throw ⟨.rangeWithoutStart, rest⟩
        | some _, [] => throw ⟨.unterminatedSet, []⟩
        | some min, max :: rest =>
          if max = '\\' then
            match rest with
            | [] => throw ⟨.danglingEscape, []⟩
            | e :: rest =>
              match Pattern.escaped e with
              | .char max => do
                let range ← answered (Pattern.rangeBetween min max rest)
                readItems (range :: items.tail) none rest
              | .cls _ _ => throw ⟨.invalidRange min '\\', rest⟩
          else do
            let range ← answered (Pattern.rangeBetween min max rest)
            readItems (range :: items.tail) none rest
    else if c = '\\' then
      match rest with
      | [] => throw ⟨.danglingEscape, []⟩
      | e :: rest =>
        match Pattern.escaped e with
        | .char c => readItems (.single c :: items) (some c) rest
        | .cls intervals negated => do
          let found ← ExceptT.lift (classIntervals intervals negated)
          readItems (found.reverse ++ items) none rest
    else readItems (.single c :: items) (some c) rest

theorem readItems_eq (items : List Interval) (start : Option Char) (text : List Char) :
    readItems items start text = answered (Pattern.readItems items start text) := by
  fun_induction Pattern.readItems items start text with
  | case9 items min max rest hescape _ hhead ih =>
    have hclosing : max ≠ ']' := fun h => hhead (by rw [h, List.head?_cons])
    unfold readItems
    simp [hclosing, hescape, ih, ← answered_bind]
  | case12 items start e rest intervals negated hescaped _ _ ih =>
    unfold readItems
    simp [hescaped, ih, lift_classIntervals]
  | _ =>
    unfold readItems
    simp [*, ← answered_bind]

/-- `Pattern.readSet` with complements on code points. -/
def readSet (text : List Char) : Reading (CharClass × List Char) := do
  let negated : Bool := text.head? = some '^'
  let (items, rest) ← readItems [] none (if negated then text.tail else text)
  pure (CharClass.ofSet items negated, rest)

theorem readSet_eq (text : List Char) : readSet text = answered (Pattern.readSet text) := by
  unfold readSet Pattern.readSet
  simp only [readItems_eq, ← answered_bind]
  rfl

/-! ## Expressions -/

/-- The reading that has not ended before its limit. -/
def cutShort {α : Type} : Reading α := ExceptT.mk none

/-- `Pattern.readQuantifiers`, which has to end before the limit. -/
def readQuantifiers : Nat → Pattern → List Char → Reading (Pattern × List Char)
  | 0, _, _ => cutShort
  | limit + 1, atom, text => do
    match ← answered (Pattern.readQuantifier text) with
    | none => pure (atom, text)
    | some (repetition, rest) => readQuantifiers limit (atom.repeated repetition) rest

mutual

/-- `Pattern.readBranches`, which has to end before the depth is reached. -/
def readBranches : Nat → List Char → Reading (List Pattern × List Char)
  | 0, _ => cutShort
  | depth + 1, text => do
    let (items, rest) ← readSequence depth text
    match rest with
    | '|' :: rest =>
      let (branches, rest) ← readBranches depth rest
      pure (.sequence items :: branches, rest)
    | rest => pure ([.sequence items], rest)

/-- `Pattern.readSequence`, which has to end before the depth is reached. -/
def readSequence : Nat → List Char → Reading (List Pattern × List Char)
  | 0, _ => cutShort
  | _ + 1, [] => pure ([], [])
  | depth + 1, c :: text =>
    if c = '|' ∨ c = ')' then pure ([], c :: text)
    else if Pattern.isQuantifierStart c then throw ⟨.nothingToQuantify, c :: text⟩
    else do
      let (atom, rest) ← readAtom depth c text
      let (item, rest) ← readQuantifiers (rest.length + 1) atom rest
      let (items, rest) ← readSequence depth rest
      pure (item :: items, rest)

/-- `Pattern.readAtom`, which has to end before the depth is reached. -/
def readAtom : Nat → Char → List Char → Reading (Pattern × List Char)
  | 0, _, _ => cutShort
  | depth + 1, c, text =>
    if c = '(' then do
      let (branches, rest) ← readBranches depth text
      match rest with
      | ')' :: rest => pure ((Expr.sequence [Pattern.ofBranches branches]).group, rest)
      | rest => throw ⟨.unmatchedGroup, rest⟩
    else if c = '[' then do
      let (cls, rest) ← readSet text
      pure (.terminal cls, rest)
    else answered (Pattern.readAtom (depth + 1) c text)

end

/-- Every quantifier shortens the text. -/
theorem readQuantifiers_eq (limit : Nat) (atom : Pattern) {text : List Char}
    (h : text.length ≤ limit) :
    readQuantifiers (limit + 1) atom text = answered (Pattern.readQuantifiers limit atom text) := by
  induction limit generalizing atom text with
  | zero =>
    rw [List.length_eq_zero_iff.1 (Nat.le_zero.1 h)]
    rfl
  | succ limit ih =>
    rw [readQuantifiers, Pattern.readQuantifiers]
    refine answered_bind_eq fun found hfound => ?_
    cases found with
    | none => rfl
    | some found =>
      have hlt := Pattern.length_lt_of_readQuantifier hfound
      exact ih _ (by omega)

/-- The readers answer as those of the library, where the depth is enough for the text. -/
structure Reads (depth : Nat) : Prop where
  branches : ∀ {text}, 3 * text.length + 3 ≤ depth →
    readBranches depth text = answered (Pattern.readBranches depth text)
  sequence : ∀ {text}, 3 * text.length + 2 ≤ depth →
    readSequence depth text = answered (Pattern.readSequence depth text)
  atom : ∀ {c text}, 3 * text.length + 4 ≤ depth →
    readAtom depth c text = answered (Pattern.readAtom depth c text)

section

variable {depth : Nat} (reads : Reads depth) {text : List Char}
include reads

theorem readBranches_eq (h : 3 * text.length + 3 ≤ depth + 1) :
    readBranches (depth + 1) text = answered (Pattern.readBranches (depth + 1) text) := by
  rw [readBranches, Pattern.readBranches_succ, reads.sequence (by omega)]
  refine answered_bind_eq fun (items, rest) hitems => ?_
  have hle := length_le_of_leftover ((leavesEnd depth).sequence text) hitems
  rcases rest with _ | ⟨c, rest⟩
  · rfl
  · rw [List.length_cons] at hle
    by_cases hbar : c = '|'
    · subst hbar
      have hmore := reads.branches (show 3 * rest.length + 3 ≤ depth by omega)
      show (readBranches depth rest >>= fun (branches, rest) =>
        pure (.sequence items :: branches, rest)) = _
      rw [hmore]
      exact answered_bind_eq fun _ _ => rfl
    · simp [hbar, Pattern.readMoreBranches]

theorem readSequence_eq (h : 3 * text.length + 2 ≤ depth + 1) :
    readSequence (depth + 1) text = answered (Pattern.readSequence (depth + 1) text) := by
  cases text with
  | nil => rfl
  | cons c text =>
    rw [List.length_cons] at h
    rw [readSequence, Pattern.readSequence_succ, reads.atom (by omega)]
    split
    · rfl
    · split
      · rfl
      · refine answered_bind_eq fun (atom, behind) hatom => ?_
        dsimp only
        rw [readQuantifiers_eq _ _ (Nat.le_refl _)]
        refine answered_bind_eq fun (item, rest) hitem => ?_
        have hle := length_le_of_leftover ((leavesEnd depth).atom c text) hatom
        have hle' := length_le_of_leftover (leftover_readQuantifiers _ atom behind) hitem
        dsimp only
        rw [reads.sequence (by omega)]
        exact answered_bind_eq fun _ _ => rfl

theorem readAtom_eq {c : Char} (h : 3 * text.length + 4 ≤ depth + 1) :
    readAtom (depth + 1) c text = answered (Pattern.readAtom (depth + 1) c text) := by
  rw [readAtom]
  split
  · rename_i hgroup
    rw [hgroup, Pattern.readAtom_open, reads.branches (by omega)]
    refine answered_bind_eq fun (branches, rest) _ => ?_
    rcases rest with _ | ⟨d, rest⟩
    · rfl
    · by_cases hclosing : d = ')'
      · subst hclosing
        rfl
      · simp [Pattern.closeGroup, hclosing]
  · rename_i hgroup
    split
    · rename_i hset
      rw [Pattern.readAtom_single hgroup, Pattern.readSingle, if_pos hset, readSet_eq]
      exact answered_bind_eq fun _ _ => rfl
    · rfl

end

/-- A chain of three readers consumes a character. -/
theorem reads (depth : Nat) : Reads depth := by
  induction depth with
  | zero => constructor <;> intros <;> omega
  | succ depth ih => exact ⟨readBranches_eq ih, readSequence_eq ih, readAtom_eq ih⟩

/-- `Pattern.parse`, checked. -/
def parsePattern (pattern : String) : Option (Except Diagnostic Pattern) := do
  let text := pattern.toList
  let answer ← (readBranches (3 * text.length + 3) text).run
  match answer with
  | .ok (branches, []) => some (.ok (Pattern.ofBranches branches).simplify)
  | .ok (_, rest) =>
    some (.error ⟨.malformedPattern pattern (text.length - rest.length) .unmatchedGroup, none⟩)
  | .error ⟨reason, rest⟩ =>
    some (.error ⟨.malformedPattern pattern (text.length - rest.length) reason, none⟩)

/-- Every text is read as a pattern or rejected. -/
theorem parsePattern_eq (pattern : String) :
    parsePattern pattern = some (Pattern.parse pattern) := by
  unfold parsePattern Pattern.parse Pattern.readAll
  dsimp only
  rw [(reads _).branches (Nat.le_refl _)]
  cases Pattern.readBranches (3 * pattern.toList.length + 3) pattern.toList with
  | error r => rfl
  | ok answer =>
    obtain ⟨branches, rest⟩ := answer
    cases rest <;> rfl

end LexChart.Checked
