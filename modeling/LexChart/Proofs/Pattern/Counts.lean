import LexChart.Proofs.Expr.Operators
import LexChart.Proofs.Pattern.Lookahead
import LexChart.Proofs.Pattern.Reading
set_option autoImplicit false

/-!
# Counts between braces

A quantifier between braces repeats an atom as often as its counts say, if the least count is small
enough to be a number of 64 bits.  A greatest count that is not is taken for one that is left out.

An atom may hold counts of its own that are too large.  So a text of the grammar is read as one
thing, whatever follows it, or the reading gives up for the reason that a count is too large.
`Consumes` says this of one answer, and is kept when one reader follows another.
-/

namespace LexChart.Pattern

variable {α β : Type}

/-! ## Giving up because of a count -/

/-- A reading takes all of a text but `rest` and finds something, or it gives up because of a
count. -/
def Consumes (found : Option α) (answer : Except Rejection (α × List Char)) (rest : List Char) :
    Prop :=
  match found with
  | some a => answer = .ok (a, rest)
  | none => ∃ behind, answer = .error ⟨.invalidRepetition, behind⟩

theorem Consumes.bind {found : Option α} {next? : α → Option β}
    {answer : Except Rejection (α × List Char)}
    {next : α × List Char → Except Rejection (β × List Char)} {middle rest : List Char}
    (h : Consumes found answer middle) (hnext : ∀ a, Consumes (next? a) (next (a, middle)) rest) :
    Consumes (found.bind next?) (answer >>= next) rest := by
  cases found with
  | none =>
    obtain ⟨behind, rfl⟩ := h
    exact ⟨behind, rfl⟩
  | some a =>
    obtain rfl : answer = .ok (a, middle) := h
    exact hnext a

/-! ## The counts -/

/-- A quantifier between braces, its least count, and its greatest one, if it has one. -/
inductive IsCounted : List Char → Nat → Option Nat → Prop where
  | exactly {digits : List Char} {n : Nat} : IsNumeral digits n →
      IsCounted ('\x7b' :: digits ++ ['\x7d']) n (some n)
  | atLeast {digits : List Char} {n : Nat} : IsNumeral digits n →
      IsCounted ('\x7b' :: digits ++ [',', '\x7d']) n none
  | fromTo {least most : List Char} {n m : Nat} : IsNumeral least n → IsNumeral most m →
      IsCounted ('\x7b' :: least ++ ',' :: most ++ ['\x7d']) n (some m)

/-- The repetition of two counts, unless the least one is too large or above the greatest one.  A
greatest count that is too large is left out. -/
def countedRepetition (n : Nat) (most : Option Nat) : Option Repetition :=
  if n < countLimit ∧ ∀ m ∈ most, n ≤ m then
    some (.between n (most.filter (· < countLimit)))
  else none

theorem countedRepetition_eq_some_iff {n : Nat} {most : Option Nat} {r : Repetition} :
    countedRepetition n most = some r ↔ n < countLimit ∧ (∀ m ∈ most, n ≤ m) ∧
      r = .between n (most.filter (· < countLimit)) := by
  unfold countedRepetition
  split
  · rename_i h
    rw [Option.some.injEq]
    exact ⟨fun heq => ⟨h.1, h.2, heq.symm⟩, fun heq => heq.2.2.symm⟩
  · rename_i h
    exact ⟨nofun, fun heq => absurd ⟨heq.1, heq.2.1⟩ h⟩

theorem countedRepetition_of_le {n : Nat} (most : Option Nat) (h : countLimit ≤ n) :
    countedRepetition n most = none :=
  if_neg fun hlt => absurd hlt.1 (Nat.not_lt.2 h)

theorem readCount_numeral_filter {digits rest : List Char} {n : Nat} (h : IsNumeral digits n)
    (hrest : NoDigit rest) :
    readCount (digits ++ rest) = ((some n).filter (· < countLimit), rest) := by
  obtain ⟨hne, hdigits, rfl⟩ := h
  rw [readCount_digits hdigits hrest]
  simp only [List.isEmpty_eq_false_iff.2 hne, Bool.false_or, decide_eq_true_eq, Option.filter]
  split <;> split <;> first | rfl | omega

/-- The closing brace behind a small least count. -/
theorem closeCounts_filter {n : Nat} (most : Option Nat) (rest : List Char) (hn : n < countLimit) :
    Consumes (countedRepetition n most)
      (closeCounts n (most.filter (· < countLimit)) ('\x7d' :: rest)) rest := by
  rw [closeCounts_brace]
  have hany : (most.filter (· < countLimit)).any (· < n) = true ↔ ¬ ∀ m ∈ most, n ≤ m := by
    simp only [Option.any_eq_true, Option.filter_eq_some_iff, decide_eq_true_eq]
    constructor
    · rintro ⟨m, ⟨hm, -⟩, hlt⟩ hall
      exact absurd (hall m hm) (Nat.not_le.2 hlt)
    · intro hall
      simp only [not_forall, Nat.not_le] at hall
      obtain ⟨m, hm, hlt⟩ := hall
      exact ⟨m, ⟨hm, Nat.lt_trans hlt hn⟩, hlt⟩
  unfold countedRepetition
  by_cases hle : ∀ m ∈ most, n ≤ m
  · rw [if_pos ⟨hn, hle⟩, if_neg fun h => hany.1 h hle]
    rfl
  · rw [if_neg fun h => hle h.2, if_pos (hany.2 hle)]
    exact ⟨rest, rfl⟩

/-- The counts are read one after the other, and the second one only if the first one is small. -/
theorem readCounts_numeral {digits rest behind : List Char} {n : Nat} {most : Option Nat}
    (hn : IsNumeral digits n) (hbehind : NoDigit behind)
    (hmost : n < countLimit →
      takeMaxCount n behind = .ok (most.filter (· < countLimit), '\x7d' :: rest)) :
    Consumes (countedRepetition n most) (readCounts (digits ++ behind)) rest := by
  rw [readCounts_eq, takeCount, readCount_numeral_filter hn hbehind]
  by_cases hlt : n < countLimit
  · rw [Option.filter_some, if_pos (decide_eq_true hlt)]
    show Consumes _ (readBehindCount (some n) behind) rest
    rw [readBehindCount, hmost hlt]
    exact closeCounts_filter most rest hlt
  · rw [Option.filter_some, if_neg (by simpa using hlt),
      countedRepetition_of_le most (Nat.not_lt.1 hlt)]
    exact ⟨behind, rfl⟩

theorem takeQuantifier_counted {q : List Char} {n : Nat} {most : Option Nat}
    (h : IsCounted q n most) (rest : List Char) :
    Consumes ((countedRepetition n most).map some) (takeQuantifier (q ++ rest)) rest := by
  have hbrace : NoDigit ('\x7d' :: rest) := by simp [NoDigit]
  have hquantifier : ∀ {text}, Consumes (countedRepetition n most) (readCounts text) rest →
      Consumes ((countedRepetition n most).map some) (takeQuantifier ('\x7b' :: text)) rest := by
    intro text hcounts
    rw [takeQuantifier_counts, Option.map_eq_bind]
    exact hcounts.bind fun r => rfl
  cases h with
  | @exactly digits n hn =>
    rw [List.append_assoc, List.cons_append]
    refine hquantifier (readCounts_numeral hn hbrace fun hlt => ?_)
    rw [takeMaxCount_of_ne (by simp), Option.filter_some, if_pos (decide_eq_true hlt)]
    rfl
  | @atLeast digits n hn =>
    rw [List.append_assoc, List.cons_append]
    refine hquantifier (readCounts_numeral hn (by simp [NoDigit]) fun _ => ?_)
    simp [takeMaxCount, readMaxCount, readCount]
  | @fromTo least most n m hn hm =>
    rw [List.append_assoc, List.append_assoc, List.cons_append]
    refine hquantifier (readCounts_numeral hn (by simp [NoDigit]) fun _ => ?_)
    exact congrArg Except.ok (readCount_numeral_filter hm hbrace)

/-- A quantifier is read, whatever follows it, or one of its counts is too large. -/
theorem IsQuantifier.consumes {q : List Char} {r : Repetition} (h : IsQuantifier q r) :
    ∃ found : Option Repetition, ∀ rest,
      Consumes (found.map some) (takeQuantifier (q ++ rest)) rest := by
  cases h with
  | optional => exact ⟨some .optional, fun _ => rfl⟩
  | star => exact ⟨some .star, fun _ => rfl⟩
  | many => exact ⟨some .many, fun _ => rfl⟩
  | exactly hn => exact ⟨_, takeQuantifier_counted (.exactly hn)⟩
  | atLeast hn => exact ⟨_, takeQuantifier_counted (.atLeast hn)⟩
  | fromTo hn hm _ => exact ⟨_, takeQuantifier_counted (.fromTo hn hm)⟩

/-- The bounds of two counts are the counts, unless the greatest one is too large. -/
theorem bounds_between {n : Nat} {most : Option Nat} (h : ∀ m ∈ most, n ≤ m) :
    (Repetition.between n (most.filter (· < countLimit))).lower = n ∧
      (Repetition.between n (most.filter (· < countLimit))).upper =
        most.filter (· < countLimit) := by
  refine ⟨rfl, ?_⟩
  cases hfilter : most.filter (· < countLimit) with
  | none => rfl
  | some m =>
    have hle : n ≤ m := h m (Option.filter_eq_some_iff.1 hfilter).1
    exact congrArg some (Nat.max_eq_left hle)

/-! ## Atoms and their quantifiers -/

/-- An atom and the quantifiers behind it. -/
def readItem (depth : Nat) (c : Char) (text : List Char) : Except Rejection (Pattern × List Char) :=
  readAtom depth c text >>= fun (atom, rest) => readQuantifiers rest.length atom rest

theorem readSequence_item {c : Char} (h : BeginsAtom c) (depth : Nat) (text : List Char) :
    readSequence (depth + 1) (c :: text) = readItem depth c text >>= fun (item, rest) =>
      readSequence depth rest >>= fun (items, rest) => .ok (item :: items, rest) := by
  obtain ⟨hbar, hclose, hstart⟩ := h
  rw [readSequence_succ, if_neg (by simp [hbar, hclose]), if_neg (by simp [hstart])]
  unfold readItemThenSequence readItem
  rw [bind_assoc]

/-- A reading takes all of a text but `rest` and goes on with the quantifiers there, or it has given
up because of a count. -/
def Passes (found : Option Pattern) (answer : Except Rejection (Pattern × List Char))
    (rest : List Char) : Prop :=
  match found with
  | some item => ∃ limit, rest.length ≤ limit ∧ answer = readQuantifiers limit item rest
  | none => ∃ behind, answer = .error ⟨.invalidRepetition, behind⟩

section

variable {item : Option Pattern} {answer : Except Rejection (Pattern × List Char)}
  {q rest : List Char}

/-- No quantifier yet. -/
theorem passes_readAtom {depth : Nat} {c : Char} {text : List Char}
    (h : Consumes item (readAtom depth c text) rest) :
    Passes item (readItem depth c text) rest := by
  unfold readItem
  cases item with
  | none =>
    obtain ⟨behind, h⟩ := h
    exact ⟨behind, by rw [h]; rfl⟩
  | some e =>
    have h : readAtom depth c text = .ok (e, rest) := h
    exact ⟨rest.length, Nat.le_refl _, by rw [h]; rfl⟩

/-- One more quantifier. -/
theorem Passes.quantify {r : Option Repetition} (h : Passes item answer (q ++ rest)) (hq : q ≠ [])
    (hread : Consumes (r.map some) (takeQuantifier (q ++ rest)) rest) :
    Passes (item.bind fun e => r.map e.repeated) answer rest := by
  cases item with
  | none => exact h
  | some e =>
    obtain ⟨limit, hlimit, rfl⟩ := h
    have hpos : 0 < q.length := List.length_pos_iff.2 hq
    rw [List.length_append] at hlimit
    obtain ⟨limit, rfl⟩ := Nat.exists_eq_add_one.2 (by omega : 0 < limit)
    rw [readQuantifiers_succ]
    cases r with
    | none =>
      obtain ⟨behind, hread⟩ := hread
      exact ⟨behind, by rw [hread]; rfl⟩
    | some r =>
      have hread : takeQuantifier (q ++ rest) = .ok (some r, rest) := hread
      exact ⟨limit, by omega, by rw [hread]; rfl⟩

/-- Where no quantifier follows, all of them are read. -/
theorem Passes.consumes (h : Passes item answer rest) (hrest : readQuantifier rest = .ok none) :
    Consumes item answer rest := by
  cases item with
  | none => exact h
  | some e =>
    obtain ⟨limit, hlimit, rfl⟩ := h
    exact readQuantifiers_complete .refl hrest limit hlimit

end

/-- An atom is a leaf or a group, and not repeated. -/
def IsSingle (e : Pattern) : Prop := e.repetition = .once ∧ (e.join? = none ∨ e.isGrouped = true)

theorem simplify_sequence_singleton (e : Pattern) :
    (Expr.sequence [e]).simplify = e.simplify := by
  rw [Expr.sequence, Expr.simplify_node, List.flatMap_singleton, Expr.rejoin_contribution]

theorem rejoin_grouped {m : Marks} (h : m.grouped = true) (join : Join) (parts : List Pattern) :
    Expr.rejoin m join parts = .node m join parts := by
  unfold Expr.rejoin
  split
  · rw [if_pos (by simp [h])]
  · rfl

theorem repetition_withRepetition (e : Pattern) (r : Repetition) :
    (e.withRepetition r).repetition = r := by
  cases e <;> rfl

/-- Simplifying keeps the repetition of an atom. -/
theorem IsSingle.simplify_repeated {e : Pattern} (h : IsSingle e) (r : Repetition) :
    (e.repeated r).simplify = e.simplify.withRepetition r := by
  rw [Expr.repeated, if_pos h.1]
  cases e with
  | leaf m t => simp only [Expr.withRepetition, Expr.mapMarks, Expr.simplify]
  | node m join parts =>
    have hgrouped : m.grouped = true := h.2.resolve_left (Option.some_ne_none join)
    simp only [Expr.withRepetition, Expr.mapMarks, Expr.simplify]
    rw [rejoin_grouped (m := m) hgrouped]
    exact rejoin_grouped (m := { m with repetition := r }) hgrouped join _

/-- A text is read as one atom, whatever follows it, or one of its counts is too large. -/
def ReadsAtom (s : List Char) (found : Option Pattern) : Prop :=
  ∃ c t, s = c :: t ∧ BeginsAtom c ∧ (∀ e ∈ found, IsSingle e) ∧ ∀ rest depth,
    3 * (t ++ rest).length + 4 ≤ depth → Consumes found (readAtom depth c (t ++ rest)) rest

theorem readsAtom_terminal {c : Char} {t : List Char} {cls : CharClass} (hc : BeginsAtom c)
    (hread : ∀ rest depth, readAtom (depth + 1) c (t ++ rest) = .ok (.terminal cls, rest)) :
    ReadsAtom (c :: t) (some (.terminal cls)) := by
  refine ⟨c, t, rfl, hc, ?_, fun rest depth hdepth => ?_⟩
  · rintro e ⟨⟩
    exact ⟨rfl, .inl rfl⟩
  · obtain ⟨depth, rfl⟩ := Nat.exists_eq_add_one.2 (by omega : 0 < depth)
    exact hread rest depth

/-! ## By the grammar

The depths are those that are enough for whatever is generated to be read. -/

mutual

theorem consumes_readBranches : ∀ {s : List Char} {l : Language Char}, IsChoice s l →
    ∃ found : Option (List Pattern), ∀ rest depth, EndsChoice rest →
      3 * (s ++ rest).length + 3 ≤ depth → Consumes found (readBranches depth (s ++ rest)) rest
  | _, _, .one h => by
    obtain ⟨items, hitems⟩ := consumes_readSequence h
    refine ⟨items.bind fun items => some [.sequence items], fun rest depth hrest hdepth => ?_⟩
    obtain ⟨depth, rfl⟩ := Nat.exists_eq_add_one.2 (by omega : 0 < depth)
    rw [readBranches_succ]
    refine (hitems rest depth hrest.endsSequence (by omega)).bind fun items => ?_
    refine readMoreBranches_of_ne fun hbar => ?_
    exact absurd (hrest _ hbar) (by decide)
  | _, _, @IsChoice.or s t l m h k => by
    obtain ⟨items, hitems⟩ := consumes_readSequence h
    obtain ⟨branches, hbranches⟩ := consumes_readBranches k
    refine ⟨items.bind fun items => branches.bind fun branches =>
      some (.sequence items :: branches), fun rest depth hrest hdepth => ?_⟩
    obtain ⟨depth, rfl⟩ := Nat.exists_eq_add_one.2 (by omega : 0 < depth)
    have hends : EndsSequence ('|' :: (t ++ rest)) := fun c hc => .inl (Option.some.inj hc).symm
    rw [List.append_assoc, List.cons_append] at hdepth ⊢
    rw [readBranches_succ]
    refine (hitems _ depth hends (by omega)).bind fun items => ?_
    simp only [List.length_append, List.length_cons] at hdepth
    exact (hbranches rest depth hrest (by rw [List.length_append]; omega)).bind fun _ => rfl

theorem consumes_readSequence : ∀ {s : List Char} {l : Language Char}, IsSequence s l →
    ∃ found : Option (List Pattern), ∀ rest depth, EndsSequence rest →
      3 * (s ++ rest).length + 2 ≤ depth → Consumes found (readSequence depth (s ++ rest)) rest
  | _, _, .nil => by
    refine ⟨some [], fun rest depth hrest hdepth => ?_⟩
    obtain ⟨depth, rfl⟩ := Nat.exists_eq_add_one.2 (by omega : 0 < depth)
    exact readSequence_nil hrest
  | _, _, @IsSequence.cons s t l m h k => by
    obtain ⟨c, u, hs, hc, item, hitem⟩ := passes_readItem h
    obtain ⟨items, hitems⟩ := consumes_readSequence k
    refine ⟨item.bind fun item => items.bind fun items => some (item :: items),
      fun rest depth hrest hdepth => ?_⟩
    obtain ⟨depth, rfl⟩ := Nat.exists_eq_add_one.2 (by omega : 0 < depth)
    subst hs
    rw [List.append_assoc, List.cons_append] at hdepth ⊢
    rw [List.length_cons] at hdepth
    rw [readSequence_item hc]
    have hread := (hitem (t ++ rest) depth (by omega)).consumes (k.readQuantifier_eq_none hrest)
    refine hread.bind fun item => ?_
    rw [List.length_append] at hdepth
    exact (hitems rest depth hrest (by omega)).bind fun _ => rfl

theorem passes_readItem : ∀ {s : List Char} {l : Language Char}, IsQuantified s l →
    ∃ c t, s = c :: t ∧ BeginsAtom c ∧ ∃ found : Option Pattern, ∀ rest depth,
      3 * (t ++ rest).length + 4 ≤ depth → Passes found (readItem depth c (t ++ rest)) rest
  | _, _, .atom h => by
    obtain ⟨atom, c, t, rfl, hc, -, hatom⟩ := exists_readsAtom h
    exact ⟨c, t, rfl, hc, atom, fun rest depth hdepth => passes_readAtom (hatom rest depth hdepth)⟩
  | _, _, @IsQuantified.quantify s q l r h hq => by
    obtain ⟨c, t, rfl, hc, item, hitem⟩ := passes_readItem h
    obtain ⟨found, hfound⟩ := hq.consumes
    refine ⟨c, t ++ q, rfl, hc, item.bind fun e => found.map e.repeated,
      fun rest depth hdepth => ?_⟩
    rw [List.append_assoc] at hdepth ⊢
    have hne : q ≠ [] := by cases hq <;> simp
    exact (hitem (q ++ rest) depth hdepth).quantify hne (hfound rest)

theorem exists_readsAtom : ∀ {s : List Char} {l : Language Char}, IsAtom s l →
    ∃ found, ReadsAtom s found
  | _, _, @IsAtom.group s l h => by
    obtain ⟨branches, hbranches⟩ := consumes_readBranches h
    refine ⟨branches.bind fun branches => some (Expr.sequence [ofBranches branches]).group,
      '(', s ++ [')'], rfl, beginsAtom_of_not_mem (by decide), ?_, fun rest depth hdepth => ?_⟩
    · intro e he
      obtain ⟨branches, -, heq⟩ := Option.bind_eq_some_iff.1 he
      cases heq
      exact ⟨rfl, .inr rfl⟩
    · obtain ⟨depth, rfl⟩ := Nat.exists_eq_add_one.2 (by omega : 0 < depth)
      have hends : EndsChoice (')' :: rest) := fun c hc => (Option.some.inj hc).symm
      rw [List.append_assoc, List.singleton_append] at hdepth ⊢
      rw [readAtom_open]
      exact (hbranches _ depth hends (by omega)).bind fun _ => rfl
  | _, _, @IsAtom.set s cls h => by
    refine ⟨some (.terminal cls), readsAtom_terminal (beginsAtom_of_not_mem (by decide))
      fun rest depth => ?_⟩
    obtain ⟨s', hs, hset⟩ := readSet_ok h
    obtain rfl := List.append_cancel_right hs
    exact readAtom_set (by simpa using hset rest)
  | _, _, .any =>
    ⟨_, readsAtom_terminal (beginsAtom_of_not_mem (by decide)) fun _ _ => readAtom_any⟩
  | _, _, .escape e =>
    ⟨_, readsAtom_terminal (beginsAtom_of_not_mem (by decide)) fun _ _ => readAtom_escape e⟩
  | _, _, .char hc =>
    ⟨_, readsAtom_terminal (beginsAtom_of_not_reserved hc) fun _ _ => readAtom_char hc⟩

end

/-! ## Whole patterns -/

/-- A pattern is parsed as an expression, or rejected because of a count. -/
def Parses (pattern : String) : Option Pattern → Prop
  | some e => parse pattern = .ok e
  | none => ∃ position,
    parse pattern = .error ⟨.malformedPattern pattern position .invalidRepetition, none⟩

theorem Parses.eq_ok_iff {pattern : String} {found : Option Pattern} (h : Parses pattern found)
    {e : Pattern} : parse pattern = .ok e ↔ found = some e := by
  cases found with
  | some e' =>
    have h : parse pattern = .ok e' := h
    rw [h, Except.ok.injEq, Option.some.injEq]
  | none =>
    obtain ⟨position, h⟩ := h
    rw [h]
    exact ⟨nofun, nofun⟩

/-- A pattern that is one item is parsed as this item. -/
theorem parses_item {c : Char} {t : List Char} {item : Option Pattern} (hc : BeginsAtom c)
    (h : Consumes item (readItem (3 * t.length + 4) c t) []) :
    Parses (.ofList (c :: t)) (item.map Expr.simplify) := by
  have hdepth : 3 * (c :: t).length + 3 = 3 * t.length + 4 + 1 + 1 := by
    rw [List.length_cons]
    omega
  have hread : Consumes (item.bind fun item => some [.sequence [item]])
      (readBranches (3 * (c :: t).length + 3) (c :: t)) [] := by
    rw [hdepth, readBranches_succ, readSequence_item hc, bind_assoc]
    exact h.bind fun item => rfl
  cases item with
  | none =>
    obtain ⟨behind, hread⟩ := hread
    exact ⟨_, parse_eq_error_iff.2 ⟨_, _, by
      rw [String.toList_ofList]
      exact readAll_eq_error_iff.2 (.inl hread), rfl⟩⟩
  | some item =>
    have hread : readBranches (3 * (c :: t).length + 3) (c :: t) = .ok ([.sequence [item]], []) :=
      hread
    refine parse_eq_ok_iff.2 ?_
    rw [String.toList_ofList, readAll, hread]
    exact congrArg Except.ok (simplify_sequence_singleton item)

theorem IsCounted.ne_nil {q : List Char} {n : Nat} {most : Option Nat} (h : IsCounted q n most) :
    q ≠ [] := by
  cases h <;> exact List.cons_ne_nil _ _

/-- An atom with counts behind it is parsed as the repeated atom, if it is parsed as an atom and the
counts are not refused. -/
theorem exists_parses_counted {x q : List Char} {l : Language Char} {n : Nat} {most : Option Nat}
    (hx : IsAtom x l) (hq : IsCounted q n most) :
    ∃ found : Option Pattern, Parses (.ofList x) found ∧
      Parses (.ofList (x ++ q))
        (found.bind fun e => (countedRepetition n most).map e.withRepetition) := by
  obtain ⟨atom, c, t, rfl, hc, hsingle, hatom⟩ := exists_readsAtom hx
  refine ⟨atom.map Expr.simplify, ?_, ?_⟩
  · have hread := hatom [] (3 * t.length + 4) (by rw [List.append_nil])
    rw [List.append_nil] at hread
    exact parses_item hc ((passes_readAtom hread).consumes rfl)
  · -- The counts need not be in order, so the grammar knows no such quantified atom.
    have hread := hatom q (3 * (t ++ q).length + 4) (Nat.le_refl _)
    have hpasses : Passes atom (readItem (3 * (t ++ q).length + 4) c (t ++ q)) (q ++ []) := by
      rw [List.append_nil]
      exact passes_readAtom hread
    have hitem := (hpasses.quantify hq.ne_nil (takeQuantifier_counted hq [])).consumes rfl
    have hsimplify : (atom.bind fun e => (countedRepetition n most).map e.repeated).map
        Expr.simplify = (atom.map Expr.simplify).bind fun e =>
          (countedRepetition n most).map e.withRepetition := by
      cases atom with
      | none => rfl
      | some e =>
        cases countedRepetition n most with
        | none => rfl
        | some r => exact congrArg some ((hsingle e rfl).simplify_repeated r)
    rw [← hsimplify]
    exact parses_item hc hitem

/-- An atom with counts behind it is accepted if the atom is and the counts are in order. -/
theorem parse_counted_iff {x q : List Char} {l : Language Char} {n : Nat} {most : Option Nat}
    {e : Pattern} (hx : IsAtom x l) (hq : IsCounted q n most) :
    parse (.ofList (x ++ q)) = .ok e ↔ n < countLimit ∧ (∀ m ∈ most, n ≤ m) ∧
      ∃ atom, parse (.ofList x) = .ok atom ∧
        e = atom.withRepetition (.between n (most.filter (· < countLimit))) := by
  obtain ⟨found, hatom, hitem⟩ := exists_parses_counted hx hq
  simp only [hitem.eq_ok_iff, hatom.eq_ok_iff, Option.bind_eq_some_iff, Option.map_eq_some_iff,
    countedRepetition_eq_some_iff]
  constructor
  · rintro ⟨atom, hfound, r, ⟨hn, hmost, rfl⟩, rfl⟩
    exact ⟨hn, hmost, atom, hfound, rfl⟩
  · rintro ⟨hn, hmost, atom, hfound, rfl⟩
    exact ⟨atom, hfound, _, ⟨hn, hmost, rfl⟩, rfl⟩

theorem parse_counted_refused {x q : List Char} {l : Language Char} {n : Nat} {most : Option Nat}
    (hx : IsAtom x l) (hq : IsCounted q n most) (hn : countLimit ≤ n) :
    ∃ position, parse (.ofList (x ++ q)) =
      .error ⟨.malformedPattern (.ofList (x ++ q)) position .invalidRepetition, none⟩ := by
  obtain ⟨found, -, hitem⟩ := exists_parses_counted hx hq
  rw [countedRepetition_of_le most hn] at hitem
  cases found with
  | none => exact hitem
  | some e => exact hitem

/-- The counts behind an atom are the bounds of its repetition, if the least count is small enough
to be a number of 64 bits and not above the greatest one.  A greatest count that is too large leaves
the repetition without an upper bound; a least count that is too large is refused. -/
theorem counts_exact {x q : List Char} {l : Language Char} {n : Nat} {most : Option Nat}
    (hx : IsAtom x l) (hq : IsCounted q n most) :
    (∀ e, parse (.ofList (x ++ q)) = .ok e ↔ n < countLimit ∧ (∀ m ∈ most, n ≤ m) ∧
      ∃ atom, parse (.ofList x) = .ok atom ∧
        e = atom.withRepetition (.between n (most.filter (· < countLimit)))) ∧
    (∀ e, parse (.ofList (x ++ q)) = .ok e →
      e.repetition.lower = n ∧ e.repetition.upper = most.filter (· < countLimit)) ∧
    (countLimit ≤ n → ∃ position, parse (.ofList (x ++ q)) =
      .error ⟨.malformedPattern (.ofList (x ++ q)) position .invalidRepetition, none⟩) := by
  refine ⟨fun e => parse_counted_iff hx hq, fun e he => ?_, parse_counted_refused hx hq⟩
  obtain ⟨-, hmost, atom, -, rfl⟩ := (parse_counted_iff hx hq).1 he
  rw [repetition_withRepetition]
  exact bounds_between hmost

/-- A group with both counts. -/
theorem counts_exact_group : ∃ e, parse "(ab)\x7b2,13\x7d" = .ok e ∧
    e.repetition.lower = 2 ∧ e.repetition.upper = some 13 := by
  have hchar : ∀ c, c ∉ reserved → IsQuantified [c] (ofProperty (· = c)) := fun c hc =>
    .atom (.char hc)
  have hgroup : IsAtom "(ab)".toList _ :=
    .group (.one (.cons (hchar 'a' (by decide)) (.cons (hchar 'b' (by decide)) .nil)))
  have htwo : IsNumeral ['2'] 2 := ⟨by simp, by simp, rfl⟩
  have hthirteen : IsNumeral ['1', '3'] 13 := ⟨by simp, by simp, rfl⟩
  have hcounts : IsCounted "\x7b2,13\x7d".toList 2 (some 13) := .fromTo htwo hthirteen
  have hatom : parse "(ab)" = .ok (.node { grouped := true } .sequence
      [.terminal (.char 'a'), .terminal (.char 'b')]) := by decide +kernel
  obtain ⟨hparse, hbounds, -⟩ := counts_exact hgroup hcounts
  have hread := (hparse _).2 ⟨by decide, by simp, _, hatom, rfl⟩
  exact ⟨_, hread, hbounds _ hread⟩

/-- The same number is refused as a least count and left out as a greatest one. -/
theorem greatest_count_left_out :
    IsNumeral "18446744073709551616".toList countLimit ∧
    (∃ e, parse "a\x7b1,18446744073709551616\x7d" = .ok e ∧
      e.repetition.lower = 1 ∧ e.repetition.upper = none) ∧
    parse "a\x7b18446744073709551616\x7d" =
      .error ⟨.malformedPattern "a\x7b18446744073709551616\x7d" 22 .invalidRepetition, none⟩ := by
  refine ⟨⟨by decide, List.all_eq_true.1 (by decide), by decide +kernel⟩, ?_, by decide +kernel⟩
  have hread : parse "a\x7b1,18446744073709551616\x7d" =
      .ok (.leaf { repetition := .between 1 none } (.char 'a')) := by decide +kernel
  exact ⟨_, hread, rfl, rfl⟩

end LexChart.Pattern
