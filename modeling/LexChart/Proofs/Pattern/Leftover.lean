import LexChart.Proofs.Pattern.Readers
set_option autoImplicit false

/-!
# What a reading leaves

Every reader of patterns leaves an end of its text, whether it finds something or gives up.
-/

namespace LexChart.Pattern

variable {α β : Type}

/-- What is left of a text at the end of a reading. -/
def leftover : Except Rejection (α × List Char) → List Char
  | .ok (_, rest) => rest
  | .error r => r.rest

@[simp] theorem leftover_ok (a : α) (rest : List Char) :
    leftover (.ok (a, rest)) = rest := rfl

@[simp] theorem leftover_error (r : Rejection) :
    leftover (.error r : Except Rejection (α × List Char)) = r.rest := rfl

theorem leftover_bind {answer : Except Rejection (α × List Char)}
    {next : α × List Char → Except Rejection (β × List Char)} {text : List Char}
    (h : leftover answer <:+ text)
    (hnext : ∀ a rest, leftover (next (a, rest)) <:+ rest) :
    leftover (answer >>= next) <:+ text := by
  cases answer with
  | error r => exact h
  | ok found => exact (hnext found.1 found.2).trans h

/-- What is left of a text is no longer than the text. -/
theorem length_le_of_leftover {answer : Except Rejection (α × List Char)} {a : α}
    {text rest : List Char} (hleft : leftover answer <:+ text) (h : answer = .ok (a, rest)) :
    rest.length ≤ text.length := by
  rw [h] at hleft
  exact hleft.length_le

theorem leftover_rangeBetween_bind {min max : Char} {rest : List Char}
    {next : Interval → Except Rejection (α × List Char)}
    (h : ∀ range, leftover (next range) <:+ rest) :
    leftover (rangeBetween min max rest >>= next) <:+ rest := by
  unfold rangeBetween
  cases Interval.ofChars? min max with
  | none => exact List.suffix_rfl
  | some range => exact h range

theorem leftover_readItems (items : List Interval) (start : Option Char) (text : List Char) :
    leftover (readItems items start text) <:+ text := by
  fun_induction readItems items start text with
  | case1 => exact List.suffix_rfl
  | case2 items start rest => exact List.suffix_cons _ _
  | case3 items start rest _ _ ih => exact ih.trans (List.suffix_cons _ _)
  | case4 items rest => exact List.suffix_cons _ _
  | case5 => exact List.nil_suffix
  | case6 => exact List.nil_suffix
  | case7 items min e rest max _ _ _ ih =>
    exact (leftover_rangeBetween_bind ih).trans (List.suffix_append ['-', '\\', e] rest)
  | case8 items min e rest => exact List.suffix_append ['-', '\\', e] rest
  | case9 items min max rest _ _ _ ih =>
    exact (leftover_rangeBetween_bind ih).trans (List.suffix_append ['-', max] rest)
  | case10 => exact List.nil_suffix
  | case11 items start e rest c _ _ _ ih => exact ih.trans (List.suffix_append ['\\', e] rest)
  | case12 items start e rest xs negated _ _ _ ih =>
    exact ih.trans (List.suffix_append ['\\', e] rest)
  | case13 items start c rest _ _ _ ih => exact ih.trans (List.suffix_cons _ _)

theorem leftover_readSet (text : List Char) : leftover (readSet text) <:+ text := by
  by_cases hcaret : text.head? = some '^'
  · obtain ⟨rest, rfl⟩ := List.head?_eq_some_iff.1 hcaret
    rw [readSet_caret]
    exact (leftover_bind (leftover_readItems _ _ _) fun _ _ => List.suffix_rfl).trans
      (List.suffix_cons _ _)
  · rw [readSet_plain hcaret]
    exact leftover_bind (leftover_readItems _ _ _) fun _ _ => List.suffix_rfl

theorem leftover_takeCount (text : List Char) : leftover (takeCount text) <:+ text :=
  List.dropWhile_suffix Char.isDigit

theorem leftover_takeMaxCount (min : Nat) (text : List Char) :
    leftover (takeMaxCount min text) <:+ text := by
  unfold takeMaxCount readMaxCount
  split
  · exact (leftover_takeCount _).trans (List.suffix_cons _ _)
  · exact List.suffix_rfl

theorem leftover_closeCounts (min : Nat) (max : Option Nat) (text : List Char) :
    leftover (closeCounts min max text) <:+ text := by
  unfold closeCounts
  split
  · split <;> exact List.suffix_cons _ _
  · exact List.suffix_rfl

theorem leftover_readBehindCount (count : Option Nat) (text : List Char) :
    leftover (readBehindCount count text) <:+ text := by
  cases count with
  | none => exact List.suffix_rfl
  | some min =>
    exact leftover_bind (leftover_takeMaxCount min text) fun max rest =>
      leftover_closeCounts min max rest

theorem leftover_readCounts (text : List Char) : leftover (readCounts text) <:+ text := by
  rw [readCounts_eq]
  exact leftover_bind (leftover_takeCount text) leftover_readBehindCount

theorem leftover_takeQuantifier (text : List Char) : leftover (takeQuantifier text) <:+ text := by
  unfold takeQuantifier readQuantifier
  split
  case h_4 counts =>
    have hcounts := leftover_readCounts counts
    revert hcounts
    cases readCounts counts with
    | error r => exact fun h => h.trans (List.suffix_cons _ _)
    | ok found => exact fun h => h.trans (List.suffix_cons _ _)
  case h_5 => exact List.suffix_rfl
  all_goals exact List.suffix_cons _ _

theorem leftover_readQuantifiers (limit : Nat) (atom : Pattern) (text : List Char) :
    leftover (readQuantifiers limit atom text) <:+ text := by
  induction limit generalizing atom text with
  | zero => exact List.suffix_rfl
  | succ limit ih =>
    rw [readQuantifiers_succ]
    refine leftover_bind (leftover_takeQuantifier text) fun found rest => ?_
    cases found with
    | none => exact List.suffix_rfl
    | some r => exact ih _ rest

theorem leftover_closeGroup (branches : List Pattern) (text : List Char) :
    leftover (closeGroup branches text) <:+ text := by
  unfold closeGroup
  split
  · exact List.suffix_cons _ _
  · exact List.suffix_rfl

theorem leftover_readEscape (text : List Char) : leftover (readEscape text) <:+ text := by
  cases text with
  | nil => exact List.suffix_rfl
  | cons e text => exact List.suffix_cons e text

theorem leftover_readSingle (c : Char) (text : List Char) :
    leftover (readSingle c text) <:+ text := by
  unfold readSingle
  split
  · exact leftover_bind (leftover_readSet text) fun _ _ => List.suffix_rfl
  · split
    · exact List.suffix_rfl
    · split
      · exact leftover_readEscape text
      · exact List.suffix_rfl

/-- The readers of some depth leave an end of their text. -/
structure LeavesEnd (depth : Nat) : Prop where
  branches : ∀ text, leftover (readBranches depth text) <:+ text
  sequence : ∀ text, leftover (readSequence depth text) <:+ text
  atom : ∀ c text, leftover (readAtom depth c text) <:+ text

section

variable {depth : Nat} (leaves : LeavesEnd depth)
include leaves

theorem LeavesEnd.readMoreBranches (items : List Pattern) (text : List Char) :
    leftover (readMoreBranches depth items text) <:+ text := by
  unfold Pattern.readMoreBranches
  split
  · exact (leftover_bind (leaves.branches _) fun _ _ => List.suffix_rfl).trans
      (List.suffix_cons _ _)
  · exact List.suffix_rfl

theorem LeavesEnd.readItemThenSequence (c : Char) (text : List Char) :
    leftover (readItemThenSequence depth c text) <:+ text := by
  refine leftover_bind (leaves.atom c text) fun atom rest => ?_
  refine leftover_bind (leftover_readQuantifiers _ _ rest) fun item rest => ?_
  exact leftover_bind (leaves.sequence rest) fun _ _ => List.suffix_rfl

theorem leftover_readBranches (text : List Char) :
    leftover (readBranches (depth + 1) text) <:+ text := by
  rw [readBranches_succ]
  exact leftover_bind (leaves.sequence text) leaves.readMoreBranches

theorem leftover_readSequence (text : List Char) :
    leftover (readSequence (depth + 1) text) <:+ text := by
  cases text with
  | nil => exact List.suffix_rfl
  | cons c text =>
    rw [readSequence_succ]
    split
    · exact List.suffix_rfl
    · split
      · exact List.suffix_rfl
      · exact (leaves.readItemThenSequence c text).trans (List.suffix_cons c text)

theorem leftover_readAtom (c : Char) (text : List Char) :
    leftover (readAtom (depth + 1) c text) <:+ text := by
  by_cases hopen : c = '('
  · rw [hopen, readAtom_open]
    exact leftover_bind (leaves.branches text) leftover_closeGroup
  · rw [readAtom_single hopen]
    exact leftover_readSingle c text

end

theorem leavesEnd (depth : Nat) : LeavesEnd depth := by
  induction depth with
  | zero => exact ⟨fun _ => List.suffix_rfl, fun _ => List.suffix_rfl, fun _ _ => List.suffix_rfl⟩
  | succ depth ih =>
    exact ⟨leftover_readBranches ih, leftover_readSequence ih, leftover_readAtom ih⟩

end LexChart.Pattern
