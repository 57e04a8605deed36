import LexChart.Proofs.Charset.NormalForm
import LexChart.Proofs.Pattern.CharSet
import LexChart.Proofs.Pattern.Readers
set_option autoImplicit false

/-!
# What a set lists

A set is read from left to right with one character of memory: a single character is taken for an
item at once and taken back if a dash makes it the beginning of a range.  So what is read up to some
place is explained by items and perhaps one pending sign, and at the closing bracket by items alone.

No text is cut into items in two ways, since an item never begins with a bracket, nor with a dash
unless the bracket follows.
-/

namespace LexChart.Pattern

/-! ## Texts of items -/

/-- No sign begins with a character that it has to avoid. -/
theorem Sign.Avoids.text_append_ne {special : List Char} {sign : Sign} (h : sign.Avoids special) {d : Char}
    (hd : d ∈ special) (hslash : d ≠ '\\') (rest tail : List Char) :
    sign.text ++ rest ≠ d :: tail := by
  intro heq
  cases sign with
  | plain c =>
    cases heq
    exact h hd
  | escape e =>
    cases heq
    exact hslash rfl

theorem Sign.Avoids.end_of_start : ∀ {sign : Sign}, sign.Avoids [']', '-', '\\'] →
    sign.Avoids [']', '\\']
  | .plain _, h => fun hmem => h (by simp at hmem ⊢; tauto)
  | .escape _, _ => trivial

/-- Where a sign stands, no other one does. -/
theorem Sign.append_inj {s t : Sign} {a b : List Char} (hs : s.Avoids [']', '\\'])
    (ht : t.Avoids [']', '\\']) (h : s.text ++ a = t.text ++ b) : s = t ∧ a = b := by
  cases s with
  | plain c =>
    cases t with
    | plain d =>
      cases h
      exact ⟨rfl, rfl⟩
    | escape e =>
      cases h
      exact absurd (by simp) hs
  | escape e =>
    cases t with
    | plain d =>
      cases h
      exact absurd (by simp) ht
    | escape e' =>
      cases h
      exact ⟨rfl, rfl⟩

/-- An item begins neither with a bracket nor with a dash. -/
theorem IsSetItem.text_append_ne {item : SetItem} (h : IsSetItem item) {d : Char}
    (hd : d = ']' ∨ d = '-') (rest tail : List Char) : item.text ++ rest ≠ d :: tail := by
  have hspecial : d ∈ [']', '-', '\\'] := by simp [or_assoc.symm, hd]
  have hslash : d ≠ '\\' := by rcases hd with rfl | rfl <;> decide
  cases h with
  | one havoids => exact havoids.text_append_ne hspecial hslash rest tail
  | range hlo =>
    rw [SetItem.text, List.append_assoc]
    exact hlo.text_append_ne hspecial hslash _ tail

/-- The dash of a range is not the last dash of a set. -/
theorem IsSetItems.not_range {hi : Sign} {text tail rest : List Char} {items : List SetItem}
    (hhi : hi.Avoids [']', '\\']) (htext : text = '-' :: hi.text ++ tail) :
    ¬ IsSetItems text items rest := by
  intro h
  cases h with
  | close => cases htext
  | dash => exact hhi.text_append_ne (by simp) (by decide) tail _ (List.cons.inj htext).2.symm
  | cons hitem _ => exact hitem.text_append_ne (.inr rfl) _ _ htext

/-- In front of items and a bracket, no item stands where another one does. -/
theorem IsSetItem.append_inj {item item' : SetItem} {items items' : List SetItem}
    {a b rest rest' : List Char} (h : IsSetItem item) (h' : IsSetItem item')
    (ha : IsSetItems a items rest) (hb : IsSetItems b items' rest')
    (heq : item.text ++ a = item'.text ++ b) : item = item' ∧ a = b := by
  cases h with
  | one hs =>
    cases h' with
    | one ht =>
      obtain ⟨rfl, rfl⟩ := Sign.append_inj hs.end_of_start ht.end_of_start heq
      exact ⟨rfl, rfl⟩
    | range ht hhi =>
      rw [SetItem.text, SetItem.text, List.append_assoc] at heq
      obtain ⟨rfl, htext⟩ := Sign.append_inj hs.end_of_start ht.end_of_start heq
      exact absurd ha (IsSetItems.not_range hhi htext)
  | range hs hhi =>
    cases h' with
    | one ht =>
      rw [SetItem.text, SetItem.text, List.append_assoc] at heq
      obtain ⟨rfl, htext⟩ := Sign.append_inj hs.end_of_start ht.end_of_start heq
      exact absurd hb (IsSetItems.not_range hhi htext.symm)
    | range ht hhi' =>
      rw [SetItem.text, SetItem.text, List.append_assoc, List.append_assoc] at heq
      obtain ⟨rfl, htext⟩ := Sign.append_inj hs.end_of_start ht.end_of_start heq
      obtain ⟨rfl, rfl⟩ := Sign.append_inj hhi hhi' (List.cons.inj htext).2
      exact ⟨rfl, rfl⟩

/-- A text is cut into items in one way. -/
theorem IsSetItems.unique {text text' rest rest' : List Char} {items items' : List SetItem}
    (h : IsSetItems text items rest) (h' : IsSetItems text' items' rest') (heq : text = text') :
    items = items' ∧ rest = rest' := by
  induction h generalizing text' items' with
  | close =>
    cases h' with
    | close =>
      cases heq
      exact ⟨rfl, rfl⟩
    | dash => cases heq
    | cons hitem' _ => exact absurd heq.symm (hitem'.text_append_ne (.inl rfl) _ _)
  | dash =>
    cases h' with
    | close => cases heq
    | dash =>
      cases heq
      exact ⟨rfl, rfl⟩
    | cons hitem' _ => exact absurd heq.symm (hitem'.text_append_ne (.inr rfl) _ _)
  | cons hitem hitems ih =>
    cases h' with
    | close => exact absurd heq (hitem.text_append_ne (.inl rfl) _ _)
    | dash => exact absurd heq (hitem.text_append_ne (.inr rfl) _ _)
    | cons hitem' hitems' =>
      obtain ⟨rfl, htail⟩ := hitem.append_inj hitem' hitems hitems' heq
      obtain ⟨rfl, rfl⟩ := ih hitems' htail
      exact ⟨rfl, rfl⟩

/-- A set has one reading. -/
theorem IsSet.unique {text rest rest' : List Char} {negated negated' : Bool}
    {items items' : List SetItem} (h : IsSet text negated items rest)
    (h' : IsSet text negated' items' rest') :
    negated = negated' ∧ items = items' ∧ rest = rest' := by
  cases h with
  | plain hcaret hitems =>
    cases h' with
    | plain _ hitems' => exact ⟨rfl, hitems.unique hitems' rfl⟩
    | negated _ => exact absurd rfl hcaret
  | negated hitems =>
    cases h' with
    | plain hcaret _ => exact absurd rfl hcaret
    | negated hitems' => exact ⟨rfl, hitems.unique hitems' rfl⟩

/-! ## What is read so far -/

/-- The intervals found at the closing bracket are those of `base` and of items in the text. -/
def Lists (base found : List Interval) (text rest : List Char) : Prop :=
  ∃ items, IsSetItems text items rest ∧
    ∀ c, Interval.Covers found c ↔ Interval.Covers base c ∨ ∃ item ∈ items, item.Holds c

/-- The intervals read so far are those of `base` and of a single character that may still open a
range, if there is one; `sign` is how it is written. -/
inductive Pending : List Interval → Option Char → List Interval → List Char → Prop where
  | nothing {base : List Interval} : Pending base none base []
  | single {base : List Interval} (sign : Sign) {c : Char} : sign.Avoids [']', '-', '\\'] →
      sign.meaning = .char c → Pending (.single c :: base) (some c) base sign.text

section

variable {items base found : List Interval} {start : Option Char} {text pre rest : List Char}

theorem lists_close : Lists base base (']' :: rest) rest :=
  ⟨[], .close, fun c => by simp⟩

theorem lists_dash : Lists base (.single '-' :: base) ('-' :: ']' :: rest) rest := by
  refine ⟨[.dash], .dash, fun c => ?_⟩
  rw [Interval.covers_cons, Interval.mem_single, or_comm]
  simp [SetItem.Holds]

/-- One more item in front. -/
theorem Lists.cons (item : SetItem) (hitem : IsSetItem item)
    (hcovers : ∀ c, Interval.Covers items c ↔ Interval.Covers base c ∨ item.Holds c)
    (h : Lists items found text rest) : Lists base found (item.text ++ text) rest := by
  obtain ⟨its, hits, hfound⟩ := h
  refine ⟨item :: its, .cons hitem hits, fun c => ?_⟩
  rw [hfound, hcovers, List.exists_mem_cons_iff, or_assoc]

/-- A single character is an item, unless a dash follows. -/
theorem Pending.lists (hpending : Pending items start base pre) (h : Lists items found text rest) :
    Lists base found (pre ++ text) rest := by
  cases hpending with
  | nothing => exact h
  | single sign havoids hmeaning =>
    refine Lists.cons (.one sign) (.one havoids) (fun c => ?_) h
    rw [Interval.covers_cons, Interval.mem_single, or_comm, SetItem.Holds, hmeaning]
    rfl

/-- A range in place of the single character that opens it. -/
theorem Pending.lists_range {min max : Char} {range : Interval}
    (hpending : Pending items (some min) base pre) (hi : Sign) (hhi : hi.Avoids [']', '\\'])
    (hmax : hi.meaning = .char max) (hrange : Interval.ofChars? min max = some range)
    (h : Lists (range :: items.tail) found text rest) :
    Lists base found (pre ++ ('-' :: hi.text ++ text)) rest := by
  cases hpending with
  | single lo havoids hmin =>
    unfold Interval.ofChars? at hrange
    split at hrange
    · rename_i hle
      cases hrange
      have hitem : IsSetItem (.range lo hi) := .range havoids hhi hmin hmax hle
      have hcovers : ∀ c, Interval.Covers (⟨min, max, hle⟩ :: base) c ↔
          Interval.Covers base c ∨ (SetItem.range lo hi).Holds c := by
        intro c
        rw [Interval.covers_cons, or_comm, SetItem.Holds, hmin, hmax]
        simp only [Escaped.char.injEq, exists_and_left, exists_eq_left']
        exact Iff.rfl
      have hlists := Lists.cons (.range lo hi) hitem hcovers h
      rwa [SetItem.text, List.append_assoc] at hlists
    · cases hrange

end

theorem covers_classIntervals (xs : List Interval) (negated : Bool) (c : Char) :
    Interval.Covers (classIntervals xs negated) c ↔ (Escaped.cls xs negated).Holds c := by
  cases negated with
  | false => exact Iff.rfl
  | true => exact Interval.covers_invert

/-- What is found at the bracket is listed by the text, the pending character included. -/
theorem lists_of_readItems {items found base : List Interval} {start : Option Char}
    {text pre rest : List Char} (h : readItems items start text = .ok (found, rest))
    (hpending : Pending items start base pre) : Lists base found (pre ++ text) rest := by
  -- What is pending counts as an item as soon as something else than a range follows, and what is
  -- read then is the new base.
  induction items, start, text using readItems.induct generalizing base pre with
  | case2 items start rest' =>
    rw [readItems_close] at h
    cases h
    exact hpending.lists lists_close
  | case3 items start rest' hhead _ _ =>
    rw [readItems_lastDash hhead] at h
    obtain ⟨behind, rfl⟩ := List.head?_eq_some_iff.1 hhead
    rw [readItems_close] at h
    cases h
    exact hpending.lists lists_dash
  | case7 items min e rest' max he _ _ ih =>
    rw [readItems_rangeEscape he] at h
    obtain ⟨range, hrange, h⟩ := bind_eq_ok_iff.1 h
    exact hpending.lists_range (.escape e) trivial he (rangeBetween_eq_ok_iff.1 hrange)
      (ih range h .nothing)
  | case9 items min max rest' hescape _ hhead ih =>
    have hclose : max ≠ ']' := by simpa using hhead
    rw [readItems_range hclose hescape] at h
    obtain ⟨range, hrange, h⟩ := bind_eq_ok_iff.1 h
    refine hpending.lists_range (.plain max) ?_ rfl (rangeBetween_eq_ok_iff.1 hrange)
      (ih range h .nothing)
    simp [Sign.Avoids, hclose, hescape]
  | case11 items start e rest' c he _ _ ih =>
    rw [readItems_escape he] at h
    exact hpending.lists (ih h (.single (.escape e) trivial he))
  | case12 items start e rest' xs negated he _ _ ih =>
    rw [readItems_class he] at h
    refine hpending.lists (Lists.cons (.one (.escape e)) (.one trivial) (fun c => ?_)
      (ih h .nothing))
    rw [SetItem.Holds, Sign.meaning, he, ← covers_classIntervals, or_comm]
    simp [Interval.Covers, or_and_right, exists_or]
  | case13 items start c rest' hclose hdash hescape ih =>
    rw [readItems_char hclose hdash hescape] at h
    refine hpending.lists (ih h (.single (.plain c) ?_ rfl))
    simp [Sign.Avoids, hclose, hdash, hescape]
  -- The other ways to go on end with an error.
  | case1 => cases h
  | case4 items rest' _ hhead => simp [readItems.eq_def, hhead] at h
  | case5 => simp [readItems.eq_def] at h
  | case6 => simp [readItems.eq_def] at h
  | case8 items min e rest' xs negated he => simp [readItems.eq_def, he] at h
  | case10 => simp [readItems.eq_def] at h

/-! ## Every text of items is read -/

section

variable {items : List Interval} {start : Option Char} {text : List Char}

theorem readItems_sign {sign : Sign} {c : Char} (havoids : sign.Avoids [']', '-', '\\'])
    (hmeaning : sign.meaning = .char c) :
    readItems items start (sign.text ++ text) = readItems (.single c :: items) (some c) text := by
  cases sign with
  | plain d =>
    cases hmeaning
    simp only [Sign.Avoids, List.mem_cons, List.not_mem_nil, or_false, not_or] at havoids
    exact readItems_char havoids.1 havoids.2.1 havoids.2.2
  | escape e => exact readItems_escape hmeaning

theorem readItems_rangeSign {min max : Char} {hi : Sign} {range : Interval}
    (hhi : hi.Avoids [']', '\\']) (hmax : hi.meaning = .char max)
    (hrange : Interval.ofChars? min max = some range) :
    readItems items (some min) ('-' :: hi.text ++ text) =
      readItems (range :: items.tail) none text := by
  have hread : (do
      let range ← rangeBetween min max text
      readItems (range :: items.tail) none text) = readItems (range :: items.tail) none text := by
    rw [rangeBetween_eq_ok_iff.2 hrange]
    rfl
  cases hi with
  | plain d =>
    cases hmax
    simp only [Sign.Avoids, List.mem_cons, List.not_mem_nil, or_false, not_or] at hhi
    exact (readItems_range hhi.1 hhi.2).trans hread
  | escape e => exact (readItems_rangeEscape hmax).trans hread

end

theorem exists_readItems_eq_ok {text rest : List Char} {its : List SetItem}
    (h : IsSetItems text its rest) (items : List Interval) (start : Option Char) :
    ∃ found, readItems items start text = .ok (found, rest) := by
  induction h generalizing items start with
  | close => exact ⟨items, readItems_close⟩
  | dash => exact ⟨_, (readItems_lastDash rfl).trans readItems_close⟩
  | @cons item its text rest hitem _ ih =>
    cases hitem with
    | @one sign havoids =>
      cases hmeaning : sign.meaning with
      | char c =>
        obtain ⟨found, hfound⟩ := ih (.single c :: items) (some c)
        exact ⟨found, (readItems_sign havoids hmeaning).trans hfound⟩
      | cls xs negated =>
        cases sign with
        | plain c => cases hmeaning
        | escape e =>
          obtain ⟨found, hfound⟩ := ih ((classIntervals xs negated).reverse ++ items) none
          exact ⟨found, (readItems_class hmeaning).trans hfound⟩
    | @range lo hi min max hlo hhi hmin hmax hle =>
      have hrange : Interval.ofChars? min max = some ⟨min, max, hle⟩ := dif_pos hle
      obtain ⟨found, hfound⟩ := ih (⟨min, max, hle⟩ :: items) none
      refine ⟨found, ?_⟩
      rw [SetItem.text, List.append_assoc, readItems_sign hlo hmin]
      exact (readItems_rangeSign hhi hmax hrange).trans hfound

/-! ## Sets -/

theorem pairwise_intervals_ofSet (xs : List Interval) (negated : Bool) :
    (CharClass.ofSet xs negated).intervals.Pairwise Interval.Apart := by
  have hset : (CharClass.set (Interval.normalize xs) negated).intervals.Pairwise
      Interval.Apart := by
    cases negated with
    | false => exact Interval.pairwise_normalize xs
    | true => exact Interval.pairwise_invert _
  unfold CharClass.ofSet
  split
  · split <;> exact List.pairwise_singleton _ _
  · exact hset

/-- The capital of a class holds what the class does not. -/
theorem holds_capital {lower upper : Char}
    (h : (lower, upper) ∈ [('d', 'D'), ('w', 'W'), ('s', 'S')]) (c : Char) :
    (SetItem.one (.escape upper)).Holds c ↔ ¬ (SetItem.one (.escape lower)).Holds c := by
  simp only [List.mem_cons, Prod.mk.injEq, List.not_mem_nil, or_false] at h
  obtain ⟨rfl, rfl⟩ | ⟨rfl, rfl⟩ | ⟨rfl, rfl⟩ := h <;> exact Iff.rfl

/-- The class holds the characters that some item lists, or all others. -/
def IsClassOf (cls : CharClass) (negated : Bool) (items : List SetItem) : Prop :=
  ∀ c, cls.holds c = true ↔
    if negated then ¬ ∃ item ∈ items, item.Holds c else ∃ item ∈ items, item.Holds c

theorem exists_items_of_closeSet {text rest : List Char} {negated : Bool} {cls : CharClass}
    (h : readItems [] none text >>= closeSet negated = .ok (cls, rest)) :
    ∃ items, IsSetItems text items rest ∧ IsClassOf cls negated items ∧
      cls.intervals.Pairwise Interval.Parted := by
  obtain ⟨⟨found, rest'⟩, hfound, hset⟩ := bind_eq_ok_iff.1 h
  cases hset
  obtain ⟨items, hitems, hlists⟩ := lists_of_readItems hfound .nothing
  refine ⟨items, hitems, fun c => ?_,
    (pairwise_intervals_ofSet found negated).imp Interval.Apart.parted⟩
  have hcovers : Interval.Covers found c ↔ ∃ item ∈ items, item.Holds c := by
    rw [hlists]
    exact or_iff_right (by simp [Interval.Covers])
  rw [CharClass.holds_iff, CharClass.covers_intervals, CharClass.stands_ofSet]
  cases negated with
  | false => exact hcovers
  | true => exact not_congr hcovers

theorem exists_isSet_of_readSet {text rest : List Char} {cls : CharClass}
    (h : readSet text = .ok (cls, rest)) :
    ∃ negated items, IsSet text negated items rest ∧ IsClassOf cls negated items ∧
      cls.intervals.Pairwise Interval.Parted := by
  by_cases hcaret : text.head? = some '^'
  · obtain ⟨text, rfl⟩ := List.head?_eq_some_iff.1 hcaret
    obtain ⟨items, hitems, hcls⟩ := exists_items_of_closeSet ((readSet_caret text).symm.trans h)
    exact ⟨true, items, .negated hitems, hcls⟩
  · obtain ⟨items, hitems, hcls⟩ := exists_items_of_closeSet ((readSet_plain hcaret).symm.trans h)
    exact ⟨false, items, .plain hcaret hitems, hcls⟩

/-- A text is accepted as a set exactly if it can be cut into items up to a bracket. -/
theorem readSet_accepts_iff {text rest : List Char} :
    (∃ cls, readSet text = .ok (cls, rest)) ↔ ∃ negated items, IsSet text negated items rest := by
  constructor
  · rintro ⟨cls, h⟩
    obtain ⟨negated, items, hset, -⟩ := exists_isSet_of_readSet h
    exact ⟨negated, items, hset⟩
  · rintro ⟨negated, items, h⟩
    cases h with
    | plain hcaret hitems =>
      obtain ⟨found, hfound⟩ := exists_readItems_eq_ok hitems [] none
      exact ⟨.ofSet found false, by rw [readSet_plain hcaret, hfound]; rfl⟩
    | negated hitems =>
      obtain ⟨found, hfound⟩ := exists_readItems_eq_ok hitems [] none
      exact ⟨.ofSet found true, by rw [readSet_caret, hfound]; rfl⟩

/-- A text is accepted as a set exactly if it can be read as a caret perhaps and then items up to the
closing bracket, and there is one such reading.  The class holds the characters that some item lists,
or all others behind a caret, where a capital lists what its small letter does not; the intervals of
the class ascend and lie apart. -/
theorem set_exact (text rest : List Char) :
    ((∃ cls, readSet text = .ok (cls, rest)) ↔ ∃ negated items, IsSet text negated items rest) ∧
    ∀ cls, readSet text = .ok (cls, rest) →
      (∃ negated items, IsSet text negated items rest ∧
        (∀ negated' items' rest', IsSet text negated' items' rest' →
          negated' = negated ∧ items' = items ∧ rest' = rest) ∧
        ∀ c, cls.holds c = true ↔
          if negated then ¬ ∃ item ∈ items, item.Holds c else ∃ item ∈ items, item.Holds c) ∧
      (∀ lower upper, (lower, upper) ∈ [('d', 'D'), ('w', 'W'), ('s', 'S')] → ∀ c,
        (SetItem.one (.escape upper)).Holds c ↔ ¬ (SetItem.one (.escape lower)).Holds c) ∧
      cls.intervals.Pairwise Interval.Parted := by
  refine ⟨readSet_accepts_iff, fun cls h => ?_⟩
  obtain ⟨negated, items, hset, hcls, hparted⟩ := exists_isSet_of_readSet h
  refine ⟨⟨negated, items, hset, ?_, hcls⟩, fun _ _ hcapital => holds_capital hcapital, hparted⟩
  intro negated' items' rest' hset'
  exact hset'.unique hset

/-- Items of each kind behind a caret: only the digits are left. -/
theorem set_exact_caret :
    ∃ cls, readSet "^a-z\\D+-\\.-]b".toList = .ok (cls, ['b']) ∧ ∀ c, cls.holds c = true ↔
      ¬ ∃ item ∈ [.range (.plain 'a') (.plain 'z'), .one (.escape 'D'),
        .range (.plain '+') (.escape '.'), .dash], SetItem.Holds item c := by
  have hread : readSet "^a-z\\D+-\\.-]b".toList = .ok (.set
      [⟨'\x00', '/', by decide⟩, ⟨':', Char.ofNat 0x10FFFF, by decide⟩] true, ['b']) := by
    decide +kernel
  have hletters : IsSetItem (.range (.plain 'a') (.plain 'z')) :=
    .range (by simp [Sign.Avoids]) (by simp [Sign.Avoids]) rfl rfl (by decide)
  have hclass : IsSetItem (.one (.escape 'D')) := .one trivial
  have hsigns : IsSetItem (.range (.plain '+') (.escape '.')) :=
    .range (by simp [Sign.Avoids]) trivial rfl rfl (by decide)
  have hset : IsSet "^a-z\\D+-\\.-]b".toList true [.range (.plain 'a') (.plain 'z'),
      .one (.escape 'D'), .range (.plain '+') (.escape '.'), .dash] ['b'] :=
    .negated (.cons hletters (.cons hclass (.cons hsigns .dash)))
  obtain ⟨⟨negated, items, -, hunique, hholds⟩, -⟩ := (set_exact _ _).2 _ hread
  obtain ⟨rfl, rfl, -⟩ := hunique _ _ _ hset
  exact ⟨_, hread, hholds⟩

end LexChart.Pattern
