import LexChart.Pattern.Reader
import LexChart.Proofs.Pattern.Quantifier
set_option autoImplicit false

/-!
# One reader behind another

A reader of patterns that goes on with what another one has left is written here as a bind of the
two, with a name for the second.  What holds of a bind then carries from reader to reader: what is
left of a text, and what two texts have in common when they are read alike.
-/

namespace LexChart.Pattern

/-! ## Sets -/

/-- The set of some items. -/
def closeSet (negated : Bool) (found : List Interval × List Char) :
    Except Rejection (CharClass × List Char) :=
  .ok (CharClass.ofSet found.1 negated, found.2)

theorem readSet_caret (text : List Char) :
    readSet ('^' :: text) = readItems [] none text >>= closeSet true := rfl

theorem readSet_plain {text : List Char} (h : text.head? ≠ some '^') :
    readSet text = readItems [] none text >>= closeSet false := by
  unfold readSet
  simp only [h, decide_false, Bool.false_eq_true, if_false]
  rfl

/-! ## Quantifiers -/

/-- `readCount`, which always answers. -/
def takeCount (text : List Char) : Except Rejection (Option Nat × List Char) := .ok (readCount text)

/-- `readMaxCount`, which always answers. -/
def takeMaxCount (min : Nat) (text : List Char) : Except Rejection (Option Nat × List Char) :=
  .ok (readMaxCount min text)

theorem takeMaxCount_of_ne {min : Nat} {text : List Char} (h : text.head? ≠ some ',') :
    takeMaxCount min text = .ok (some min, text) := by
  cases text <;> simp_all [takeMaxCount, readMaxCount]

/-- The closing brace behind some counts. -/
def closeCounts (min : Nat) (max : Option Nat) :
    List Char → Except Rejection (Repetition × List Char)
  | '\x7d' :: rest =>
    if max.any (· < min) then .error ⟨.invalidRepetition, rest⟩ else .ok (.between min max, rest)
  | rest => .error ⟨.invalidRepetition, rest⟩

/-- The greatest count behind the least one, if there is one, and the closing brace. -/
def readBehindCount (count : Option Nat) (text : List Char) :
    Except Rejection (Repetition × List Char) :=
  match count with
  | none => .error ⟨.invalidRepetition, text⟩
  | some min => takeMaxCount min text >>= fun (max, rest) => closeCounts min max rest

theorem readCounts_eq (text : List Char) :
    readCounts text = takeCount text >>= fun (count, rest) => readBehindCount count rest := by
  show _ = readBehindCount (readCount text).1 (readCount text).2
  unfold readCounts readBehindCount
  rcases readCount text with ⟨count, rest⟩
  cases count with
  | none => rfl
  | some min =>
    dsimp only
    show _ = closeCounts min (readMaxCount min rest).1 (readMaxCount min rest).2
    rcases readMaxCount min rest with ⟨max, _ | ⟨d, behind⟩⟩
    · rfl
    · by_cases hd : d = '\x7d'
      · subst hd
        rfl
      · simp [closeCounts, hd]

theorem closeCounts_brace (min : Nat) (max : Option Nat) (rest : List Char) :
    closeCounts min max ('\x7d' :: rest) =
      if max.any (· < min) then .error ⟨.invalidRepetition, rest⟩
      else .ok (.between min max, rest) := rfl

theorem closeCounts_of_ne {min : Nat} {max : Option Nat} {text : List Char}
    (h : text.head? ≠ some '\x7d') :
    closeCounts min max text = .error ⟨.invalidRepetition, text⟩ := by
  cases text <;> simp_all [closeCounts]

/-- The quantifier at the beginning of a text, if there is one, and what stands behind it. -/
def takeQuantifier (text : List Char) : Except Rejection (Option Repetition × List Char) :=
  (readQuantifier text).map fun found =>
    match found with
    | none => (none, text)
    | some (r, rest) => (some r, rest)

theorem readQuantifiers_succ (limit : Nat) (atom : Pattern) (text : List Char) :
    readQuantifiers (limit + 1) atom text = takeQuantifier text >>= fun (found, rest) =>
      match found with
      | none => pure (atom, rest)
      | some r => readQuantifiers limit (atom.repeated r) rest := by
  rw [readQuantifiers, takeQuantifier]
  cases readQuantifier text with
  | error r => rfl
  | ok found => cases found <;> rfl

theorem readQuantifier_of_takeQuantifier {text rest : List Char} {r : Repetition}
    (h : takeQuantifier text = .ok (some r, rest)) :
    readQuantifier text = .ok (some (r, rest)) := by
  obtain ⟨found, hfound, heq⟩ := map_eq_ok_iff.1 h
  cases found with
  | none => cases heq
  | some found =>
    cases heq
    exact hfound

theorem takeQuantifier_none {text : List Char}
    (h : ∀ d ∈ text.head?, isQuantifierStart d = false) :
    takeQuantifier text = .ok (none, text) := by
  rw [takeQuantifier, readQuantifier_eq_none h]
  rfl

theorem takeQuantifier_counts (text : List Char) :
    takeQuantifier ('\x7b' :: text) = readCounts text >>= fun (r, rest) => .ok (some r, rest) := by
  have hread : readQuantifier ('\x7b' :: text) = (readCounts text).map some := rfl
  rw [takeQuantifier, hread]
  cases readCounts text <;> rfl

/-! ## Branches and sequences -/

/-- The branches behind the first one. -/
def readMoreBranches (depth : Nat) (items : List Pattern) :
    List Char → Except Rejection (List Pattern × List Char)
  | '|' :: rest =>
    readBranches depth rest >>= fun (branches, rest) => .ok (.sequence items :: branches, rest)
  | rest => .ok ([.sequence items], rest)

theorem readMoreBranches_of_ne {depth : Nat} {items : List Pattern} {text : List Char}
    (h : text.head? ≠ some '|') :
    readMoreBranches depth items text = .ok ([.sequence items], text) := by
  cases text <;> simp_all [readMoreBranches]

theorem readBranches_succ (depth : Nat) (text : List Char) :
    readBranches (depth + 1) text =
      readSequence depth text >>= fun (items, rest) => readMoreBranches depth items rest := by
  rw [readBranches]
  refine bind_congr fun found => ?_
  rcases found with ⟨items, _ | ⟨d, rest⟩⟩
  · rfl
  · by_cases hd : d = '|'
    · subst hd
      rfl
    · simp [readMoreBranches, hd]
      rfl

/-- The quantified atom that begins with a character, and what stands behind it in its sequence. -/
def readItemThenSequence (depth : Nat) (c : Char) (text : List Char) :
    Except Rejection (List Pattern × List Char) :=
  readAtom depth c text >>= fun (atom, rest) =>
    readQuantifiers rest.length atom rest >>= fun (item, rest) =>
      readSequence depth rest >>= fun (items, rest) => .ok (item :: items, rest)

theorem readSequence_succ (depth : Nat) (c : Char) (text : List Char) :
    readSequence (depth + 1) (c :: text) =
      if c = '|' ∨ c = ')' then .ok ([], c :: text)
      else if isQuantifierStart c then .error ⟨.nothingToQuantify, c :: text⟩
      else readItemThenSequence depth c text := by
  rw [readSequence]
  rfl

/-! ## Atoms -/

/-- The closing parenthesis of a group. -/
def closeGroup (branches : List Pattern) : List Char → Except Rejection (Pattern × List Char)
  | ')' :: rest => .ok ((Expr.sequence [ofBranches branches]).group, rest)
  | rest => .error ⟨.unmatchedGroup, rest⟩

theorem closeGroup_of_ne {branches : List Pattern} {text : List Char}
    (h : text.head? ≠ some ')') : closeGroup branches text = .error ⟨.unmatchedGroup, text⟩ := by
  cases text <;> simp_all [closeGroup]

theorem readAtom_open (depth : Nat) (text : List Char) :
    readAtom (depth + 1) '(' text =
      readBranches depth text >>= fun (branches, rest) => closeGroup branches rest := by
  rw [readAtom.eq_def]
  refine bind_congr fun found => ?_
  rcases found with ⟨branches, _ | ⟨d, rest⟩⟩
  · rfl
  · by_cases hd : d = ')'
    · subst hd
      rfl
    · simp [closeGroup, hd]

theorem closeGroup_eq_ok_iff {branches : List Pattern} {text rest : List Char} {found : Pattern} :
    closeGroup branches text = .ok (found, rest) ↔
      text = ')' :: rest ∧ found = (Expr.sequence [ofBranches branches]).group := by
  constructor
  · intro h
    unfold closeGroup at h
    split at h
    · cases h
      exact ⟨rfl, rfl⟩
    · cases h
  · rintro ⟨rfl, rfl⟩
    rfl

/-- The class of an escape. -/
def ofEscaped : Escaped → CharClass
  | .char c => .char c
  | .cls xs negated => .ofSet xs negated

/-- The escape behind a backslash. -/
def readEscape : List Char → Except Rejection (Pattern × List Char)
  | [] => .error ⟨.danglingEscape, []⟩
  | e :: rest => .ok (.terminal (ofEscaped (escaped e)), rest)

/-- The atom that begins with a character which opens no group. -/
def readSingle (c : Char) (text : List Char) : Except Rejection (Pattern × List Char) :=
  if c = '[' then readSet text >>= fun (cls, rest) => .ok (.terminal cls, rest)
  else if c = '.' then .ok (.terminal .any, text)
  else if c = '\\' then readEscape text
  else .ok (.terminal (.char c), text)

theorem readAtom_single {c : Char} (h : c ≠ '(') (depth : Nat) (text : List Char) :
    readAtom (depth + 1) c text = readSingle c text := by
  rw [readAtom.eq_def]
  dsimp only
  rw [if_neg h]
  refine ite_congr rfl (fun _ => rfl) fun _ => ?_
  refine ite_congr rfl (fun _ => rfl) fun _ => ?_
  refine ite_congr rfl (fun _ => ?_) fun _ => rfl
  cases text with
  | nil => rfl
  | cons e rest =>
    rw [readEscape]
    dsimp only
    cases escaped e <;> rfl

end LexChart.Pattern
