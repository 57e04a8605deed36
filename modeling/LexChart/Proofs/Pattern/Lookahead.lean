import LexChart.Proofs.Pattern.CharSet
import LexChart.Proofs.Pattern.Leftover
set_option autoImplicit false

/-!
# One character of lookahead

What a reader answers depends on the text before the end that it leaves and on the first character
of this end only: with another text behind that character, it finds the same or gives up for the
same reason, at the same place.

So two texts that agree up to and with a character are read alike as long as the readers leave that
character.  `Agree` says this of two answers, and is kept when one reader follows another.
-/

namespace LexChart.Pattern

variable {α β : Type}

/-! ## Two answers -/

/-- The texts of two readings are the same up to and with the character `c`, behind which one goes
on with `s` and the other with `t`.  If the first reading leaves the character, the second one finds
the same or gives up for the same reason, and leaves what corresponds. -/
structure Agree (c : Char) (s t : List Char)
    (first second : Except Rejection (α × List Char)) : Prop where
  ok : ∀ {a u}, first = .ok (a, u ++ c :: s) → second = .ok (a, u ++ c :: t)
  error : ∀ {r u}, first = .error ⟨r, u ++ c :: s⟩ → second = .error ⟨r, u ++ c :: t⟩

variable {c : Char} {s t : List Char}

/-- An end of a text with an end of its own has that end too. -/
theorem exists_append_of_suffix {rest u : List Char} (h : u ++ c :: s <:+ rest) :
    ∃ v, rest = v ++ c :: s := by
  obtain ⟨w, rfl⟩ := h
  exact ⟨w ++ u, by rw [List.append_assoc]⟩

theorem not_suffix_of_behind {u : List Char} : ¬ u ++ c :: s <:+ s := by
  intro h
  have hle := h.length_le
  rw [List.length_append, List.length_cons] at hle
  omega

theorem head?_append_cons (v : List Char) : (v ++ c :: s).head? = (v ++ c :: t).head? := by
  cases v <;> rfl

namespace Agree

theorem found (a : α) (v : List Char) :
    Agree c s t (.ok (a, v ++ c :: s)) (.ok (a, v ++ c :: t)) := by
  constructor
  · intro b u h
    obtain ⟨rfl, heq⟩ := Prod.mk.inj (Except.ok.inj h)
    rw [List.append_cancel_right heq]
  · intro r u h
    cases h

theorem rejected (r : PatternError) (v : List Char) :
    Agree c s t (.error ⟨r, v ++ c :: s⟩ : Except Rejection (α × List Char))
      (.error ⟨r, v ++ c :: t⟩) := by
  constructor
  · intro b u h
    cases h
  · intro r' u h
    obtain ⟨rfl, heq⟩ := Rejection.mk.inj (Except.error.inj h)
    rw [List.append_cancel_right heq]

/-- Nothing is said about a reading that takes the character. -/
theorem past {first second : Except Rejection (α × List Char)} (h : leftover first <:+ s) :
    Agree c s t first second := by
  constructor
  · rintro a u rfl
    exact absurd h not_suffix_of_behind
  · rintro r u rfl
    exact absurd h not_suffix_of_behind

/-- The reading leaves an end of its text, so the text may be taken to go on with the character. -/
theorem of_leftover {first second : Except Rejection (α × List Char)} {rest : List Char}
    (hleft : leftover first <:+ rest) (h : ∀ v, rest = v ++ c :: s → Agree c s t first second) :
    Agree c s t first second := by
  constructor
  · rintro a u rfl
    obtain ⟨v, hv⟩ := exists_append_of_suffix hleft
    exact (h v hv).ok rfl
  · rintro r u rfl
    obtain ⟨v, hv⟩ := exists_append_of_suffix hleft
    exact (h v hv).error rfl

/-- Readings that agree may be followed by readings that agree on what the first ones leave. -/
theorem bind {first second : Except Rejection (α × List Char)}
    {next next' : α × List Char → Except Rejection (β × List Char)}
    (h : Agree c s t first second) (hleft : ∀ a rest, leftover (next (a, rest)) <:+ rest)
    (hnext : ∀ a v, first = .ok (a, v ++ c :: s) →
      Agree c s t (next (a, v ++ c :: s)) (next' (a, v ++ c :: t))) :
    Agree c s t (first >>= next) (second >>= next') := by
  cases first with
  | error r =>
    constructor
    · intro b u hbind
      cases hbind
    · intro r' u hbind
      obtain rfl := Except.error.inj hbind
      rw [h.error rfl]
      rfl
  | ok found =>
    obtain ⟨a, rest⟩ := found
    refine of_leftover (hleft a rest) fun v hv => ?_
    subst hv
    rw [h.ok rfl]
    exact hnext a v rfl

/-- A reader that takes some characters and leaves an end of the rest may be taken to find the
character in the rest. -/
theorem skip {first : Except Rejection (α × List Char)}
    {read : List Char → Except Rejection (α × List Char)} (taken : List Char)
    {rest v : List Char} (htext : taken ++ rest = v ++ c :: s) (hleft : leftover first <:+ rest)
    (h : ∀ v', rest = v' ++ c :: s → Agree c s t first (read (taken ++ (v' ++ c :: t)))) :
    Agree c s t first (read (v ++ c :: t)) := by
  refine of_leftover hleft fun v' hrest => ?_
  rw [hrest, ← List.append_assoc] at htext
  rw [← List.append_cancel_right htext, List.append_assoc]
  exact h v' hrest

/-- Readers that look for a character and take it read alike if they do so behind it and where they
do not find it. -/
theorem byFirst {read read' : List Char → Except Rejection (α × List Char)} (d : Char)
    {v : List Char} (hleft : ∀ rest, leftover (read (d :: rest)) <:+ rest)
    (htaken : ∀ v', v = d :: v' → Agree c s t (read (d :: (v' ++ c :: s)))
      (read' (d :: (v' ++ c :: t))))
    (hother : (v ++ c :: s).head? ≠ some d → (v ++ c :: t).head? ≠ some d →
      Agree c s t (read (v ++ c :: s)) (read' (v ++ c :: t))) :
    Agree c s t (read (v ++ c :: s)) (read' (v ++ c :: t)) := by
  by_cases hd : (v ++ c :: s).head? = some d
  · obtain ⟨rest, htext⟩ := List.head?_eq_some_iff.1 hd
    rw [htext]
    refine skip [d] htext.symm (hleft rest) fun v' hrest => ?_
    subst hrest
    rw [← List.cons_append] at htext
    exact htaken v' (List.append_cancel_right htext)
  · exact hother hd (head?_append_cons v ▸ hd)

end Agree

/-! ## Sets -/

theorem agree_rangeBetween {min max : Char} {v : List Char}
    {next next' : Interval → Except Rejection (α × List Char)}
    (h : ∀ range, Agree c s t (next range) (next' range)) :
    Agree c s t (rangeBetween min max (v ++ c :: s) >>= next)
      (rangeBetween min max (v ++ c :: t) >>= next') := by
  unfold rangeBetween
  cases Interval.ofChars? min max with
  | none => exact .rejected _ v
  | some range => exact h range

theorem readItems_withoutStart {items : List Interval} {rest : List Char}
    (h : ¬ rest.head? = some ']') :
    readItems items none ('-' :: rest) = .error ⟨.rangeWithoutStart, rest⟩ := by
  rw [readItems.eq_def]
  simp [h]

theorem readItems_classEnd {items xs : List Interval} {min e : Char} {negated : Bool}
    {rest : List Char} (he : escaped e = .cls xs negated) :
    readItems items (some min) ('-' :: '\\' :: e :: rest) =
      .error ⟨.invalidRange min '\\', rest⟩ := by
  rw [readItems.eq_def]
  simp [he]

/-- The reading of a set that is cut off takes all of the text. -/
theorem leftover_readItems_cut {items : List Interval} {start : Option Char} {text : List Char}
    (h : text = [] ∨ text = ['\\'] ∨
      ∃ min, start = some min ∧ (text = ['-'] ∨ text = ['-', '\\'])) :
    leftover (readItems items start text) = [] := by
  rcases h with rfl | rfl | ⟨min, rfl, rfl | rfl⟩ <;> simp [readItems.eq_def]

theorem agree_readItems {items : List Interval} {start : Option Char} {text : List Char} :
    ∀ {v}, text = v ++ c :: s →
      Agree c s t (readItems items start text) (readItems items start (v ++ c :: t)) := by
  have hcut : ∀ {items start text} {second : Except Rejection (List Interval × List Char)},
      leftover (readItems items start text) = [] →
        Agree c s t (readItems items start text) second := by
    intro items start text second h
    exact .past (h ▸ List.nil_suffix)
  induction items, start, text using readItems.induct with
  | case1 => exact fun _ => hcut (leftover_readItems_cut (.inl rfl))
  | case2 items start rest =>
    intro v hv
    rw [readItems_close]
    refine .skip [']'] hv List.suffix_rfl fun v' hrest => ?_
    rw [hrest, List.singleton_append, readItems_close]
    exact .found items v'
  | case3 items start rest hhead _ ih =>
    intro v hv
    rw [readItems_lastDash hhead]
    refine .skip ['-'] hv (leftover_readItems _ _ _) fun v' hrest => ?_
    rw [hrest, head?_append_cons (t := t)] at hhead
    rw [List.singleton_append, readItems_lastDash hhead]
    exact ih hrest
  | case4 items rest _ hhead =>
    intro v hv
    rw [readItems_withoutStart hhead]
    refine .skip ['-'] hv List.suffix_rfl fun v' hrest => ?_
    rw [hrest, head?_append_cons (t := t)] at hhead
    rw [hrest, List.singleton_append, readItems_withoutStart hhead]
    exact .rejected _ v'
  | case5 items min =>
    exact fun _ => hcut (leftover_readItems_cut (.inr (.inr ⟨min, rfl, .inl rfl⟩)))
  | case6 items min =>
    exact fun _ => hcut (leftover_readItems_cut (.inr (.inr ⟨min, rfl, .inr rfl⟩)))
  | case7 items min e rest max he _ _ ih =>
    intro v hv
    rw [readItems_rangeEscape he]
    refine .skip ['-', '\\', e] hv (leftover_rangeBetween_bind fun _ => leftover_readItems _ _ _)
      fun v' hrest => ?_
    subst hrest
    simp only [List.cons_append, List.nil_append]
    rw [readItems_rangeEscape he]
    exact agree_rangeBetween fun range => ih range rfl
  | case8 items min e rest xs negated he =>
    intro v hv
    rw [readItems_classEnd he]
    refine .skip ['-', '\\', e] hv List.suffix_rfl fun v' hrest => ?_
    simp only [List.cons_append, List.nil_append]
    rw [hrest, readItems_classEnd he]
    exact .rejected _ v'
  | case9 items min max rest hescape _ hhead ih =>
    intro v hv
    have hclose : max ≠ ']' := by simpa using hhead
    rw [readItems_range hclose hescape]
    refine .skip ['-', max] hv (leftover_rangeBetween_bind fun _ => leftover_readItems _ _ _)
      fun v' hrest => ?_
    subst hrest
    simp only [List.cons_append, List.nil_append]
    rw [readItems_range hclose hescape]
    exact agree_rangeBetween fun range => ih range rfl
  | case10 => exact fun _ => hcut (leftover_readItems_cut (.inr (.inl rfl)))
  | case11 items start e rest max he _ _ ih =>
    intro v hv
    rw [readItems_escape he]
    refine .skip ['\\', e] hv (leftover_readItems _ _ _) fun v' hrest => ?_
    simp only [List.cons_append, List.nil_append]
    rw [readItems_escape he]
    exact ih hrest
  | case12 items start e rest xs negated he _ _ ih =>
    intro v hv
    rw [readItems_class he]
    refine .skip ['\\', e] hv (leftover_readItems _ _ _) fun v' hrest => ?_
    simp only [List.cons_append, List.nil_append]
    rw [readItems_class he]
    exact ih hrest
  | case13 items start d rest hclose hdash hescape ih =>
    intro v hv
    rw [readItems_char hclose hdash hescape]
    refine .skip [d] hv (leftover_readItems _ _ _) fun v' hrest => ?_
    rw [List.singleton_append, readItems_char hclose hdash hescape]
    exact ih hrest

theorem agree_readSet (v : List Char) :
    Agree c s t (readSet (v ++ c :: s)) (readSet (v ++ c :: t)) := by
  have hclose : ∀ negated v, Agree c s t (readItems [] none (v ++ c :: s) >>= closeSet negated)
      (readItems [] none (v ++ c :: t) >>= closeSet negated) := fun negated v =>
    (agree_readItems rfl).bind (fun _ _ => List.suffix_rfl) fun _ v' _ => .found _ v'
  refine .byFirst '^' (fun text => ?_) (fun v' _ => hclose true v') fun hs ht => ?_
  · rw [readSet_caret]
    exact leftover_bind (leftover_readItems _ _ _) fun _ _ => List.suffix_rfl
  · rw [readSet_plain hs, readSet_plain ht]
    exact hclose false v

/-! ## Quantifiers -/

theorem noDigit_dropWhile (text : List Char) : NoDigit (text.dropWhile Char.isDigit) := by
  intro d hd
  have hnot := List.head?_dropWhile_not Char.isDigit text
  rw [Option.mem_def.1 hd] at hnot
  exact hnot

theorem readCount_digits {digits rest : List Char} (hdigits : ∀ d ∈ digits, d.isDigit = true)
    (hrest : NoDigit rest) : readCount (digits ++ rest) =
      (if digits.isEmpty || countLimit ≤ decimalValue digits then none
        else some (decimalValue digits), rest) := by
  unfold readCount
  rw [List.takeWhile_append_of_pos hdigits, hrest.takeWhile_eq, List.append_nil,
    List.dropWhile_append_of_pos hdigits, hrest.dropWhile_eq]

/-- A count that leaves the character ends before it. -/
theorem agree_takeCount (v : List Char) :
    Agree c s t (takeCount (v ++ c :: s)) (takeCount (v ++ c :: t)) := by
  have hleft : leftover (takeCount (v ++ c :: s)) <:+ (v ++ c :: s).dropWhile Char.isDigit :=
    List.suffix_rfl
  refine .of_leftover hleft fun u hrest => ?_
  have hdigits : ∀ d ∈ (v ++ c :: s).takeWhile Char.isDigit, d.isDigit = true :=
    fun d hd => List.mem_takeWhile_imp hd
  have hend := noDigit_dropWhile (v ++ c :: s)
  have htext := List.takeWhile_append_dropWhile (p := Char.isDigit) (l := v ++ c :: s)
  generalize (v ++ c :: s).takeWhile Char.isDigit = digits at hdigits htext
  rw [hrest] at hend htext
  rw [← List.append_assoc] at htext
  obtain rfl := List.append_cancel_right htext
  have hend' : NoDigit (u ++ c :: t) := by
    unfold NoDigit at hend ⊢
    rwa [head?_append_cons (t := s)]
  unfold takeCount
  rw [List.append_assoc, List.append_assoc, readCount_digits hdigits hend,
    readCount_digits hdigits hend']
  exact .found _ u

theorem agree_takeMaxCount (min : Nat) (v : List Char) :
    Agree c s t (takeMaxCount min (v ++ c :: s)) (takeMaxCount min (v ++ c :: t)) := by
  refine .byFirst ',' leftover_takeCount (fun v' _ => agree_takeCount v') fun hs ht => ?_
  rw [takeMaxCount_of_ne hs, takeMaxCount_of_ne ht]
  exact .found _ v

theorem agree_closeCounts (min : Nat) (max : Option Nat) (v : List Char) :
    Agree c s t (closeCounts min max (v ++ c :: s)) (closeCounts min max (v ++ c :: t)) := by
  refine .byFirst '\x7d' (fun text => ?_) (fun v' _ => ?_) fun hs ht => ?_
  · rw [closeCounts_brace]
    split <;> exact List.suffix_rfl
  · rw [closeCounts_brace, closeCounts_brace]
    split
    · exact .rejected _ v'
    · exact .found _ v'
  · rw [closeCounts_of_ne hs, closeCounts_of_ne ht]
    exact .rejected _ v

theorem agree_readCounts (v : List Char) :
    Agree c s t (readCounts (v ++ c :: s)) (readCounts (v ++ c :: t)) := by
  rw [readCounts_eq, readCounts_eq]
  refine (agree_takeCount v).bind leftover_readBehindCount fun count v' _ => ?_
  cases count with
  | none => exact .rejected _ v'
  | some min =>
    exact (agree_takeMaxCount min v').bind (leftover_closeCounts min) fun max v'' _ =>
      agree_closeCounts min max v''

theorem agree_takeQuantifier (v : List Char) :
    Agree c s t (takeQuantifier (v ++ c :: s)) (takeQuantifier (v ++ c :: t)) := by
  refine .byFirst '?' (fun _ => List.suffix_rfl) (fun v' _ => .found _ v') fun hs₁ _ => ?_
  refine .byFirst '*' (fun _ => List.suffix_rfl) (fun v' _ => .found _ v') fun hs₂ _ => ?_
  refine .byFirst '+' (fun _ => List.suffix_rfl) (fun v' _ => .found _ v') fun hs₃ _ => ?_
  refine .byFirst '\x7b' (fun text => ?_) (fun v' _ => ?_) fun hs₄ _ => ?_
  · rw [takeQuantifier_counts]
    exact leftover_bind (leftover_readCounts text) fun _ _ => List.suffix_rfl
  · rw [takeQuantifier_counts, takeQuantifier_counts]
    exact (agree_readCounts v').bind (fun _ _ => List.suffix_rfl) fun _ v'' _ => .found _ v''
  · have hnone : ∀ d ∈ (v ++ c :: s).head?, isQuantifierStart d = false := by
      intro d hd
      rw [Option.mem_def.1 hd] at hs₁ hs₂ hs₃ hs₄
      simp_all [isQuantifierStart]
    rw [takeQuantifier_none hnone, takeQuantifier_none (head?_append_cons v ▸ hnone)]
    exact .found _ v

/-- Every quantifier takes a character, so limits that are enough for the two texts do not show. -/
theorem agree_readQuantifiers {limit limit' : Nat} (atom : Pattern) {v : List Char}
    (hlimit : (v ++ c :: s).length ≤ limit) (hlimit' : (v ++ c :: t).length ≤ limit') :
    Agree c s t (readQuantifiers limit atom (v ++ c :: s))
      (readQuantifiers limit' atom (v ++ c :: t)) := by
  induction limit generalizing limit' atom v with
  | zero => simp at hlimit
  | succ limit ih =>
    cases limit' with
    | zero => simp at hlimit'
    | succ limit' =>
      rw [readQuantifiers_succ, readQuantifiers_succ]
      refine (agree_takeQuantifier v).bind (fun found rest => ?_) fun found v' hfound => ?_
      · cases found with
        | none => exact List.suffix_rfl
        | some r => exact leftover_readQuantifiers _ _ rest
      · cases found with
        | none => exact .found atom v'
        | some r =>
          have hlt := length_lt_of_readQuantifier (readQuantifier_of_takeQuantifier hfound)
          simp only [List.length_append, List.length_cons] at hlt hlimit hlimit' ih
          exact ih _ (by omega) (by omega)

/-! ## Patterns -/

theorem before_le_of_leftover {first : Except Rejection (α × List Char)} {a : α}
    {v v' : List Char} (hleft : leftover first <:+ v ++ c :: s) (h : first = .ok (a, v' ++ c :: s)) :
    v'.length ≤ v.length := by
  have hle := length_le_of_leftover hleft h
  rw [List.length_append, List.length_append] at hle
  exact Nat.le_of_add_le_add_right hle

theorem agree_closeGroup (branches : List Pattern) (v : List Char) :
    Agree c s t (closeGroup branches (v ++ c :: s)) (closeGroup branches (v ++ c :: t)) := by
  refine .byFirst ')' (fun _ => List.suffix_rfl) (fun v' _ => .found _ v') fun hs ht => ?_
  rw [closeGroup_of_ne hs, closeGroup_of_ne ht]
  exact .rejected _ v

theorem agree_readEscape (v : List Char) :
    Agree c s t (readEscape (v ++ c :: s)) (readEscape (v ++ c :: t)) := by
  cases v with
  | nil => exact .past List.suffix_rfl
  | cons e v => exact .found _ v

theorem agree_readSingle (d : Char) (v : List Char) :
    Agree c s t (readSingle d (v ++ c :: s)) (readSingle d (v ++ c :: t)) := by
  unfold readSingle
  split
  · exact (agree_readSet v).bind (fun _ _ => List.suffix_rfl) fun _ v' _ => .found _ v'
  · split
    · exact .found _ v
    · split
      · exact agree_readEscape v
      · exact .found _ v

/-- The readers read alike, where the depths are enough for the two texts. -/
structure ReadsAlike (c : Char) (s t : List Char) (depth : Nat) : Prop where
  branches : ∀ {v depth'}, 3 * (v.length + s.length + 1) + 3 ≤ depth →
    3 * (v.length + t.length + 1) + 3 ≤ depth' →
      Agree c s t (readBranches depth (v ++ c :: s)) (readBranches depth' (v ++ c :: t))
  sequence : ∀ {v depth'}, 3 * (v.length + s.length + 1) + 2 ≤ depth →
    3 * (v.length + t.length + 1) + 2 ≤ depth' →
      Agree c s t (readSequence depth (v ++ c :: s)) (readSequence depth' (v ++ c :: t))
  atom : ∀ {d v depth'}, 3 * (v.length + s.length + 1) + 4 ≤ depth →
    3 * (v.length + t.length + 1) + 4 ≤ depth' →
      Agree c s t (readAtom depth d (v ++ c :: s)) (readAtom depth' d (v ++ c :: t))

section

variable {depth depth' : Nat} {v : List Char} (alike : ReadsAlike c s t depth)
include alike

theorem ReadsAlike.readMoreBranches (items : List Pattern)
    (h : 3 * (v.length + s.length + 1) ≤ depth) (h' : 3 * (v.length + t.length + 1) ≤ depth') :
    Agree c s t (readMoreBranches depth items (v ++ c :: s))
      (readMoreBranches depth' items (v ++ c :: t)) := by
  refine .byFirst '|' (fun rest => ?_) (fun v' hv => ?_) fun hs ht => ?_
  · exact leftover_bind ((leavesEnd depth).branches rest) fun _ _ => List.suffix_rfl
  · rw [hv, List.length_cons] at h h'
    exact (alike.branches (by omega) (by omega)).bind (fun _ _ => List.suffix_rfl)
      fun _ v'' _ => .found _ v''
  · rw [readMoreBranches_of_ne hs, readMoreBranches_of_ne ht]
    exact .found _ v

theorem ReadsAlike.readItemThenSequence (d : Char)
    (h : 3 * (v.length + s.length + 1) + 4 ≤ depth)
    (h' : 3 * (v.length + t.length + 1) + 4 ≤ depth') :
    Agree c s t (readItemThenSequence depth d (v ++ c :: s))
      (readItemThenSequence depth' d (v ++ c :: t)) := by
  have leaves := leavesEnd depth
  refine (alike.atom h h').bind (fun atom rest => ?_) fun atom v₁ hatom => ?_
  · refine leftover_bind (leftover_readQuantifiers _ _ rest) fun item rest => ?_
    exact leftover_bind (leaves.sequence rest) fun _ _ => List.suffix_rfl
  have hle₁ := before_le_of_leftover (leaves.atom d _) hatom
  refine (agree_readQuantifiers atom (Nat.le_refl _) (Nat.le_refl _)).bind (fun item rest => ?_)
    fun item v₂ hitem => ?_
  · exact leftover_bind (leaves.sequence rest) fun _ _ => List.suffix_rfl
  have hle₂ := before_le_of_leftover (leftover_readQuantifiers _ atom _) hitem
  exact (alike.sequence (by omega) (by omega)).bind (fun _ _ => List.suffix_rfl)
    fun items v₃ _ => .found (item :: items) v₃

theorem agree_readBranches (h : 3 * (v.length + s.length + 1) + 3 ≤ depth + 1)
    (h' : 3 * (v.length + t.length + 1) + 3 ≤ depth' + 1) :
    Agree c s t (readBranches (depth + 1) (v ++ c :: s))
      (readBranches (depth' + 1) (v ++ c :: t)) := by
  rw [readBranches_succ, readBranches_succ]
  refine (alike.sequence (by omega) (by omega)).bind (leavesEnd depth).readMoreBranches
    fun items v' hitems => ?_
  have hle := before_le_of_leftover ((leavesEnd depth).sequence _) hitems
  exact alike.readMoreBranches items (by omega) (by omega)

theorem agree_readSequence (h : 3 * (v.length + s.length + 1) + 2 ≤ depth + 1)
    (h' : 3 * (v.length + t.length + 1) + 2 ≤ depth' + 1) :
    Agree c s t (readSequence (depth + 1) (v ++ c :: s))
      (readSequence (depth' + 1) (v ++ c :: t)) := by
  cases v with
  | nil =>
    rw [List.nil_append, List.nil_append, readSequence_succ, readSequence_succ]
    split
    · exact .found _ []
    · split
      · exact .rejected _ []
      · exact .past ((leavesEnd depth).readItemThenSequence c s)
  | cons d v =>
    rw [List.cons_append, List.cons_append, readSequence_succ, readSequence_succ]
    rw [List.length_cons] at h h'
    split
    · exact .found _ (d :: v)
    · split
      · exact .rejected _ (d :: v)
      · exact alike.readItemThenSequence d (by omega) (by omega)

theorem agree_readAtom {d : Char} (h : 3 * (v.length + s.length + 1) + 4 ≤ depth + 1)
    (h' : 3 * (v.length + t.length + 1) + 4 ≤ depth' + 1) :
    Agree c s t (readAtom (depth + 1) d (v ++ c :: s)) (readAtom (depth' + 1) d (v ++ c :: t)) := by
  by_cases hopen : d = '('
  · rw [hopen, readAtom_open, readAtom_open]
    refine (alike.branches (by omega) (by omega)).bind leftover_closeGroup
      fun branches v' _ => agree_closeGroup branches v'
  · rw [readAtom_single hopen, readAtom_single hopen]
    exact agree_readSingle d v

end

theorem readsAlike (c : Char) (s t : List Char) (depth : Nat) : ReadsAlike c s t depth := by
  induction depth with
  | zero => constructor <;> intros <;> omega
  | succ depth ih =>
    constructor
    · intro v depth' h h'
      cases depth' with
      | zero => omega
      | succ depth' => exact agree_readBranches ih h h'
    · intro v depth' h h'
      cases depth' with
      | zero => omega
      | succ depth' => exact agree_readSequence ih h h'
    · intro d v depth' h h'
      cases depth' with
      | zero => omega
      | succ depth' => exact agree_readAtom ih h h'

/-! ## Rejections -/

/-- A pattern is rejected where its branches are, or where they end before it does. -/
theorem readAll_eq_error_iff {text rest : List Char} {r : PatternError} :
    readAll text = .error ⟨r, rest⟩ ↔
      readBranches (3 * text.length + 3) text = .error ⟨r, rest⟩ ∨
      ∃ branches, readBranches (3 * text.length + 3) text = .ok (branches, rest) ∧
        r = .unmatchedGroup ∧ rest ≠ [] := by
  unfold readAll
  cases readBranches (3 * text.length + 3) text with
  | error r' =>
    constructor
    · exact fun h => .inl (congrArg Except.error (Except.error.inj h))
    · rintro (h | ⟨branches, h, -⟩)
      · exact congrArg Except.error (Except.error.inj h)
      · cases h
  | ok found =>
    obtain ⟨branches, _ | ⟨d, behind⟩⟩ := found
    · constructor
      · intro h
        cases h
      · rintro (h | ⟨branches', h, -, hrest⟩)
        · cases h
        · cases h
          exact absurd rfl hrest
    · constructor
      · intro h
        cases h
        exact .inr ⟨branches, rfl, rfl, List.cons_ne_nil d behind⟩
      · rintro (h | ⟨branches', h, rfl, -⟩)
        · cases h
        · cases h
          rfl

theorem parse_eq_error_iff {pattern : String} {d : Diagnostic} :
    parse pattern = .error d ↔ ∃ r rest, readAll pattern.toList = .error ⟨r, rest⟩ ∧
      d = ⟨.malformedPattern pattern (pattern.toList.length - rest.length) r, none⟩ := by
  unfold parse
  dsimp only
  cases readAll pattern.toList with
  | ok e => simp
  | error r =>
    constructor
    · intro h
      exact ⟨r.reason, r.rest, rfl, (Except.error.inj h).symm⟩
    · rintro ⟨reason, rest, h, rfl⟩
      obtain rfl := Except.error.inj h
      rfl

theorem suffix_of_readAll_eq_error {text rest : List Char} {r : PatternError}
    (h : readAll text = .error ⟨r, rest⟩) : rest <:+ text := by
  have hleft := (leavesEnd (3 * text.length + 3)).branches text
  rcases readAll_eq_error_iff.1 h with h | ⟨branches, h, -⟩
  · rwa [h] at hleft
  · rwa [h] at hleft

/-- What stands behind the character at which a pattern is rejected does not matter. -/
theorem readAll_error_of_prefix {v u : List Char} {r : PatternError}
    (h : readAll (v ++ c :: s) = .error ⟨r, u ++ c :: s⟩) :
    readAll (v ++ c :: t) = .error ⟨r, u ++ c :: t⟩ := by
  have hlength : ∀ behind : List Char,
      3 * (v.length + behind.length + 1) + 3 ≤ 3 * (v ++ c :: behind).length + 3 := by
    intro behind
    rw [List.length_append, List.length_cons]
    omega
  have hagree := (readsAlike c s t _).branches (hlength s) (hlength t)
  rw [readAll_eq_error_iff] at h ⊢
  rcases h with h | ⟨branches, h, hr, -⟩
  · exact .inl (hagree.error h)
  · exact .inr ⟨branches, hagree.ok h, hr, by simp⟩

theorem exists_append_of_take {v text : List Char}
    (h : text.take (v.length + 1) = (v ++ c :: s).take (v.length + 1)) :
    ∃ t, text = v ++ c :: t := by
  have hprefix : (v ++ c :: s).take (v.length + 1) = v ++ [c] := by
    rw [List.append_cons]
    exact List.take_left' (by simp)
  refine ⟨text.drop (v.length + 1), ?_⟩
  rw [List.append_cons, ← hprefix, ← h, List.take_append_drop]

/-- A pattern is rejected at a place within it, or at its end, and the rejection names it.  If there
is a character at that place, then every pattern that begins like this one, up to and with this
character, is rejected at the same place for the same reason. -/
theorem rejection_within_prefix {pattern : String} {d : Diagnostic}
    (h : parse pattern = .error d) :
    ∃ position reason, d = ⟨.malformedPattern pattern position reason, none⟩ ∧
      position ≤ pattern.toList.length ∧
      (position < pattern.toList.length → ∀ other : String,
        other.toList.take (position + 1) = pattern.toList.take (position + 1) →
          parse other = .error ⟨.malformedPattern other position reason, none⟩) := by
  obtain ⟨reason, rest, hread, rfl⟩ := parse_eq_error_iff.1 h
  refine ⟨_, reason, rfl, Nat.sub_le _ _, fun hlt other hother => ?_⟩
  cases rest with
  | nil => exact absurd hlt (Nat.lt_irrefl _)
  | cons c s =>
    obtain ⟨v, hv⟩ := suffix_of_readAll_eq_error hread
    have hposition : ∀ t : List Char, (v ++ c :: t).length - (c :: t).length = v.length := by
      intro t
      rw [List.length_append, Nat.add_sub_cancel]
    rw [← hv, hposition] at hother
    obtain ⟨t, ht⟩ := exists_append_of_take hother
    rw [← hv] at hread
    refine parse_eq_error_iff.2 ⟨reason, c :: t, ?_, ?_⟩
    · rw [ht]
      exact readAll_error_of_prefix (u := []) hread
    · rw [← hv, ht, hposition, hposition]

/-- The greatest count is below the least one, whatever stands behind the second brace. -/
theorem rejection_within_prefix_counts :
    parse "a\x7b5,2\x7db" = .error
      ⟨.malformedPattern "a\x7b5,2\x7db" 6 .invalidRepetition, none⟩ ∧
    parse "a\x7b5,2\x7db(c" = .error
      ⟨.malformedPattern "a\x7b5,2\x7db(c" 6 .invalidRepetition, none⟩ := by
  have hparse : parse "a\x7b5,2\x7db" = .error
      ⟨.malformedPattern "a\x7b5,2\x7db" 6 .invalidRepetition, none⟩ := by decide +kernel
  obtain ⟨position, reason, heq, -, hprefix⟩ := rejection_within_prefix hparse
  cases heq
  exact ⟨hparse, hprefix (by decide) "a\x7b5,2\x7db(c" (by decide)⟩

end LexChart.Pattern
