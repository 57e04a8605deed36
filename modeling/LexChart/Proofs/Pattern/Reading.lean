import LexChart.Proofs.Expr.Language
import LexChart.Proofs.Pattern.CharSet
import LexChart.Proofs.Pattern.Readers
import Mathlib.Logic.Relation
set_option autoImplicit false

/-!
# Reading patterns

A pattern is read if and only if the grammar of patterns generates it, and the expression that it is
read as denotes the language that the grammar gives it.

From the reader to the grammar the proof goes by the depth of the readers: whatever is read off the
beginning of a text is a choice, a sequence or an atom.  From the grammar to the reader it goes by
the grammar: a choice, a sequence or an atom is read off a text that begins with it, if the text
goes on with something that ends it, and a depth in proportion to the length of the text is enough.
-/

namespace LexChart.Pattern

open Relation (ReflTransGen)

/-! ## The languages of what the readers build -/

theorem language_repeated (e : Pattern) (r : Repetition) :
    language (e.repeated r) = r.language (language e) :=
  Expr.language_repeated e r

theorem language_sequence (items : List Pattern) :
    language (.sequence items) = (items.map language).prod := by
  show Expr.language _ (.node {} .sequence items) = _
  rw [Expr.language_node, Repetition.language_once]
  rfl

theorem language_ofBranches (branches : List Pattern) :
    language (ofBranches branches) = (branches.map language).sum := by
  unfold ofBranches
  split
  · simp
  · show Expr.language _ (.node {} .choice branches) = _
    rw [Expr.language_node, Repetition.language_once]
    rfl

theorem language_group (e : Pattern) : language (Expr.sequence [e]).group = language e := by
  show Expr.language _ (.node { grouped := true } .sequence [e]) = _
  rw [Expr.language_node, Repetition.language_once]
  simp [Join.language, language]

theorem language_terminal (cls : CharClass) : language (.terminal cls) = cls.language :=
  Expr.language_terminal cls

/-- The words of an escape are those that the notation gives it. -/
theorem language_ofEscaped (found : Escaped) :
    (ofEscaped found).language = ofProperty found.Holds := by
  cases found with
  | char c => exact (CharClass.language_char c).trans (ofProperty_eq c).symm
  | cls xs negated => exact language_ofSet xs negated

theorem language_simplify (e : Pattern) : language e.simplify = language e :=
  Expr.language_simplify e

/-! ## Whatever is read is generated -/

/-- The character begins an atom. -/
def BeginsAtom (c : Char) : Prop := c ≠ '|' ∧ c ≠ ')' ∧ isQuantifierStart c = false

theorem BeginsAtom.notMem_reserved {c : Char} (h : BeginsAtom c) (hopen : c ≠ '(') (hset : c ≠ '[')
    (hdot : c ≠ '.') (hescape : c ≠ '\\') : c ∉ reserved := by
  obtain ⟨hbar, hclose, hstart⟩ := h
  have hstart' : c ≠ '?' ∧ c ≠ '*' ∧ c ≠ '+' ∧ c ≠ '\x7b' := by
    simpa [isQuantifierStart, and_assoc] using hstart
  simp_all [reserved]

/-- What the readers of some depth read is generated by the grammar. -/
structure ReadsGenerated (depth : Nat) : Prop where
  branches : ∀ {text rest : List Char} {found : List Pattern}, CountsFit text →
    readBranches depth text = .ok (found, rest) →
      ∃ s, text = s ++ rest ∧ IsChoice s (found.map language).sum
  sequence : ∀ {text rest : List Char} {found : List Pattern}, CountsFit text →
    readSequence depth text = .ok (found, rest) →
      ∃ s, text = s ++ rest ∧ IsSequence s (found.map language).prod
  atom : ∀ {c : Char} {text rest : List Char} {found : Pattern}, CountsFit text → BeginsAtom c →
    readAtom depth c text = .ok (found, rest) →
      ∃ s, text = s ++ rest ∧ IsAtom (c :: s) (language found)

/-- Quantifiers behind an atom apply to it one after the other. -/
theorem readQuantifiers_sound (limit : Nat) {e item : Pattern} {s text rest : List Char}
    (hfit : CountsFit text) (he : IsQuantified s (language e))
    (h : readQuantifiers limit e text = .ok (item, rest)) :
    ∃ q, text = q ++ rest ∧ IsQuantified (s ++ q) (language item) := by
  induction limit generalizing e s text with
  | zero =>
    cases h
    exact ⟨[], rfl, by rwa [List.append_nil]⟩
  | succ limit ih =>
    obtain ⟨found, hfound, h⟩ := bind_eq_ok_iff.1 h
    cases found with
    | none =>
      cases h
      exact ⟨[], rfl, by rwa [List.append_nil]⟩
    | some pair =>
      obtain ⟨r, afterFirst⟩ := pair
      obtain ⟨q, rfl, hq⟩ := readQuantifier_sound hfit hfound
      have he' : IsQuantified (s ++ q) (language (e.repeated r)) := by
        rw [language_repeated]
        exact .quantify he hq
      obtain ⟨more, rfl, hmore⟩ := ih hfit.right he' h
      refine ⟨q ++ more, by simp, ?_⟩
      rwa [← List.append_assoc]

theorem readEscape_sound {text rest : List Char} {found : Pattern}
    (h : readEscape text = .ok (found, rest)) :
    ∃ s, text = s ++ rest ∧ IsAtom ('\\' :: s) (language found) := by
  cases text with
  | nil => cases h
  | cons e text =>
    cases h
    refine ⟨[e], rfl, ?_⟩
    rw [language_terminal, language_ofEscaped]
    exact .escape e

/-- No other reader is called for an atom that is no group, so the depth does not show. -/
theorem readSingle_sound {c : Char} {text rest : List Char} {found : Pattern}
    (hbegins : BeginsAtom c) (hopen : c ≠ '(') (h : readSingle c text = .ok (found, rest)) :
    ∃ s, text = s ++ rest ∧ IsAtom (c :: s) (language found) := by
  unfold readSingle at h
  split at h
  · rename_i hset
    subst hset
    obtain ⟨⟨cls, rest'⟩, hcls, heq⟩ := bind_eq_ok_iff.1 h
    cases heq
    obtain ⟨s, rfl, hs⟩ := readSet_ok hcls
    refine ⟨s ++ [']'], by simp, ?_⟩
    rw [language_terminal]
    exact .set (hs [])
  · split at h
    · rename_i hdot
      subst hdot
      cases h
      refine ⟨[], rfl, ?_⟩
      rw [language_terminal, language_any]
      exact .any
    · split at h
      · rename_i hescape
        subst hescape
        exact readEscape_sound h
      · rename_i hset hdot hescape
        cases h
        refine ⟨[], rfl, ?_⟩
        rw [language_terminal, CharClass.language_char, ← ofProperty_eq]
        exact .char (hbegins.notMem_reserved hopen hset hdot hescape)

section

variable {depth : Nat} (generated : ReadsGenerated depth)
include generated

theorem readBranches_sound {text rest : List Char} {found : List Pattern} (hfit : CountsFit text)
    (h : readBranches (depth + 1) text = .ok (found, rest)) :
    ∃ s, text = s ++ rest ∧ IsChoice s (found.map language).sum := by
  rw [readBranches_succ] at h
  obtain ⟨⟨items, afterFirst⟩, hitems, hmore⟩ := bind_eq_ok_iff.1 h
  obtain ⟨s, rfl, hs⟩ := generated.sequence hfit hitems
  rw [← language_sequence] at hs
  dsimp only [readMoreBranches] at hmore
  split at hmore
  · obtain ⟨⟨branches, rest'⟩, hbranches, heq⟩ := bind_eq_ok_iff.1 hmore
    cases heq
    obtain ⟨t, rfl, ht⟩ := generated.branches hfit.right.tail hbranches
    exact ⟨s ++ '|' :: t, by simp, by simpa using IsChoice.or hs ht⟩
  · cases hmore
    exact ⟨s, rfl, by simpa using IsChoice.one hs⟩

theorem readSequence_sound {text rest : List Char} {found : List Pattern} (hfit : CountsFit text)
    (h : readSequence (depth + 1) text = .ok (found, rest)) :
    ∃ s, text = s ++ rest ∧ IsSequence s (found.map language).prod := by
  cases text with
  | nil =>
    rw [readSequence] at h
    cases h
    exact ⟨[], rfl, .nil⟩
  | cons c text =>
    rw [readSequence_succ] at h
    split at h
    · cases h
      exact ⟨[], rfl, .nil⟩
    · rename_i hends
      split at h
      · cases h
      · rename_i hstart
        have hbegins : BeginsAtom c :=
          ⟨fun hc => hends (.inl hc), fun hc => hends (.inr hc), by simpa using hstart⟩
        obtain ⟨⟨atom, afterAtom⟩, hatom, h⟩ := bind_eq_ok_iff.1 h
        obtain ⟨⟨item, afterItem⟩, hitem, h⟩ := bind_eq_ok_iff.1 h
        obtain ⟨⟨items, rest'⟩, hitems, h⟩ := bind_eq_ok_iff.1 h
        cases h
        obtain ⟨s, rfl, hs⟩ := generated.atom hfit.tail hbegins hatom
        have hfit' := hfit.tail.right
        obtain ⟨q, rfl, hq⟩ := readQuantifiers_sound _ hfit' (.atom hs) hitem
        obtain ⟨t, rfl, ht⟩ := generated.sequence hfit'.right hitems
        exact ⟨(c :: s ++ q) ++ t, by simp, by simpa using IsSequence.cons hq ht⟩

theorem readAtom_sound {c : Char} {text rest : List Char} {found : Pattern}
    (hfit : CountsFit text) (hbegins : BeginsAtom c)
    (h : readAtom (depth + 1) c text = .ok (found, rest)) :
    ∃ s, text = s ++ rest ∧ IsAtom (c :: s) (language found) := by
  by_cases hopen : c = '('
  · subst hopen
    rw [readAtom_open] at h
    obtain ⟨⟨branches, afterBranches⟩, hbranches, hclose⟩ := bind_eq_ok_iff.1 h
    obtain ⟨s, rfl, hs⟩ := generated.branches hfit hbranches
    obtain ⟨rfl, rfl⟩ := closeGroup_eq_ok_iff.1 hclose
    refine ⟨s ++ [')'], by simp, ?_⟩
    rw [language_group, language_ofBranches]
    exact .group hs
  · rw [readAtom_single hopen] at h
    exact readSingle_sound hbegins hopen h

end

theorem readsGenerated (depth : Nat) : ReadsGenerated depth := by
  induction depth with
  | zero =>
    constructor
    · intro text rest found _ h
      rw [readBranches] at h
      cases h
    · intro text rest found _ h
      rw [readSequence] at h
      cases h
    · intro c text rest found _ _ h
      rw [readAtom] at h
      cases h
  | succ depth ih =>
    exact ⟨readBranches_sound ih, readSequence_sound ih, readAtom_sound ih⟩

/-! ## Whatever is generated is read -/

/-- The text behind a choice: nothing, or a closing parenthesis. -/
def EndsChoice (rest : List Char) : Prop := ∀ c ∈ rest.head?, c = ')'

/-- The text behind a sequence: nothing, a bar or a closing parenthesis. -/
def EndsSequence (rest : List Char) : Prop := ∀ c ∈ rest.head?, c = '|' ∨ c = ')'

theorem EndsChoice.endsSequence {rest : List Char} (h : EndsChoice rest) : EndsSequence rest :=
  fun c hc => .inr (h c hc)

/-- One quantifier is read and applied. -/
def Quantifies (before after : Pattern × List Char) : Prop :=
  ∃ r, readQuantifier before.2 = .ok (some (r, after.2)) ∧ after.1 = before.1.repeated r

/-- All quantifiers behind an atom are read; each takes a character, so the limit is enough. -/
theorem readQuantifiers_complete {before : Pattern × List Char} {item : Pattern}
    {rest : List Char} (h : ReflTransGen Quantifies before (item, rest))
    (hrest : readQuantifier rest = .ok none) (limit : Nat) (hlimit : before.2.length ≤ limit) :
    readQuantifiers limit before.1 before.2 = .ok (item, rest) := by
  induction h using ReflTransGen.head_induction_on generalizing limit with
  | refl =>
    cases limit with
    | zero => rfl
    | succ limit => exact bind_eq_ok_iff.2 ⟨none, hrest, rfl⟩
  | @head before after hstep _ ih =>
    obtain ⟨r, hr, heq⟩ := hstep
    have hlt := length_lt_of_readQuantifier hr
    cases limit with
    | zero => omega
    | succ limit =>
      refine bind_eq_ok_iff.2 ⟨_, hr, ?_⟩
      rw [heq] at ih
      exact ih limit (by omega)

theorem beginsAtom_of_not_mem {c : Char} (h : c ∉ ['|', ')', '?', '*', '+', '\x7b']) :
    BeginsAtom c := by
  simpa [BeginsAtom, isQuantifierStart, and_assoc] using h

theorem beginsAtom_of_not_reserved {c : Char} (h : c ∉ reserved) : BeginsAtom c := by
  have hsub : ['|', ')', '?', '*', '+', '\x7b'] ⊆ reserved := by decide
  exact beginsAtom_of_not_mem fun hmem => h (hsub hmem)

theorem IsAtom.begins {s : List Char} {l : Language Char} (h : IsAtom s l) :
    ∃ c t, s = c :: t ∧ BeginsAtom c := by
  cases h with
  | group _ => exact ⟨_, _, rfl, beginsAtom_of_not_mem (by decide)⟩
  | set _ => exact ⟨_, _, rfl, beginsAtom_of_not_mem (by decide)⟩
  | any => exact ⟨_, _, rfl, beginsAtom_of_not_mem (by decide)⟩
  | escape e => exact ⟨_, _, rfl, beginsAtom_of_not_mem (by decide)⟩
  | @char c hc => exact ⟨c, [], rfl, beginsAtom_of_not_reserved hc⟩

theorem IsQuantified.begins : ∀ {s : List Char} {l : Language Char}, IsQuantified s l →
    ∃ c t, s = c :: t ∧ BeginsAtom c
  | _, _, .atom h => h.begins
  | _, _, .quantify h _ => by
    obtain ⟨c, t, rfl, hc⟩ := h.begins
    exact ⟨c, _, rfl, hc⟩

/-- No quantifier begins where a sequence does. -/
theorem IsSequence.readQuantifier_eq_none {s rest : List Char} {l : Language Char}
    (h : IsSequence s l) (hrest : EndsSequence rest) : readQuantifier (s ++ rest) = .ok none := by
  apply Pattern.readQuantifier_eq_none
  intro c hc
  cases h with
  | nil =>
    rcases hrest c hc with rfl | rfl
    · decide
    · decide
  | cons hs _ =>
    obtain ⟨d, t, rfl, -, -, hstart⟩ := hs.begins
    cases hc
    exact hstart

/-! ### One step of each reader -/

section

variable {depth : Nat} {text rest : List Char}

theorem readBranches_one {items : List Pattern}
    (hitems : readSequence depth text = .ok (items, rest)) (hrest : EndsChoice rest) :
    readBranches (depth + 1) text = .ok ([.sequence items], rest) := by
  rw [readBranches_succ, hitems]
  refine readMoreBranches_of_ne fun hbar => ?_
  exact absurd (hrest _ hbar) (by decide)

theorem readBranches_or {items branches : List Pattern} {more : List Char}
    (hitems : readSequence depth text = .ok (items, '|' :: more))
    (hbranches : readBranches depth more = .ok (branches, rest)) :
    readBranches (depth + 1) text = .ok (.sequence items :: branches, rest) := by
  rw [readBranches_succ]
  refine bind_eq_ok_iff.2 ⟨_, hitems, ?_⟩
  exact bind_eq_ok_iff.2 ⟨_, hbranches, rfl⟩

theorem readSequence_nil (hrest : EndsSequence rest) :
    readSequence (depth + 1) rest = .ok ([], rest) := by
  cases rest with
  | nil => rfl
  | cons c rest => rw [readSequence_succ, if_pos (hrest c rfl)]

theorem readSequence_cons {c : Char} {behind afterItem : List Char} {atom item : Pattern}
    {items : List Pattern} (hbegins : BeginsAtom c)
    (hatom : readAtom depth c text = .ok (atom, behind))
    (hitem : readQuantifiers behind.length atom behind = .ok (item, afterItem))
    (hitems : readSequence depth afterItem = .ok (items, rest)) :
    readSequence (depth + 1) (c :: text) = .ok (item :: items, rest) := by
  obtain ⟨hbar, hclose, hstart⟩ := hbegins
  rw [readSequence_succ, if_neg (by simp [hbar, hclose]), if_neg (by simp [hstart])]
  refine bind_eq_ok_iff.2 ⟨_, hatom, ?_⟩
  refine bind_eq_ok_iff.2 ⟨_, hitem, ?_⟩
  exact bind_eq_ok_iff.2 ⟨_, hitems, rfl⟩

theorem readAtom_group {branches : List Pattern}
    (hbranches : readBranches depth text = .ok (branches, ')' :: rest)) :
    readAtom (depth + 1) '(' text = .ok ((Expr.sequence [ofBranches branches]).group, rest) := by
  rw [readAtom_open]
  exact bind_eq_ok_iff.2 ⟨_, hbranches, rfl⟩

theorem readAtom_set {cls : CharClass} (hcls : readSet text = .ok (cls, rest)) :
    readAtom (depth + 1) '[' text = .ok (.terminal cls, rest) := by
  rw [readAtom_single (by decide)]
  exact bind_eq_ok_iff.2 ⟨_, hcls, rfl⟩

theorem readAtom_escape (e : Char) :
    readAtom (depth + 1) '\\' (e :: rest) = .ok (.terminal (ofEscaped (escaped e)), rest) := by
  rw [readAtom_single (by decide)]
  rfl

theorem readAtom_any : readAtom (depth + 1) '.' text = .ok (.terminal .any, text) := by
  rw [readAtom_single (by decide)]
  rfl

theorem readAtom_char {c : Char} (hc : c ∉ reserved) :
    readAtom (depth + 1) c text = .ok (.terminal (.char c), text) := by
  simp only [reserved, List.mem_cons, not_or] at hc
  obtain ⟨-, -, hopen, hset, hdot, hescape, -⟩ := hc
  rw [readAtom_single hopen, readSingle, if_neg hset, if_neg hdot, if_neg hescape]

end

/-! ### By the grammar

A choice takes a depth of three for each character of the text and three more, a sequence one less,
and an atom is read one step below the sequence that it stands in. -/

mutual

theorem readBranches_complete : ∀ {s : List Char} {l : Language Char}, IsChoice s l →
    CountsFit s → ∀ rest depth, EndsChoice rest → 3 * (s ++ rest).length + 3 ≤ depth →
      ∃ found, readBranches depth (s ++ rest) = .ok (found, rest) ∧ (found.map language).sum = l
  | _, _, .one h, hfit, rest, depth + 1, hrest, hdepth => by
    obtain ⟨items, hitems, hl⟩ :=
      readSequence_complete h hfit rest depth hrest.endsSequence (by omega)
    refine ⟨_, readBranches_one hitems hrest, ?_⟩
    simpa [language_sequence] using hl
  | _, _, @IsChoice.or s t l m h k, hfit, rest, depth + 1, hrest, hdepth => by
    have hends : EndsSequence ('|' :: (t ++ rest)) := fun c hc => .inl (Option.some.inj hc).symm
    rw [List.append_assoc, List.cons_append] at hdepth ⊢
    obtain ⟨items, hitems, hl⟩ := readSequence_complete h hfit.left _ depth hends (by omega)
    simp only [List.length_append, List.length_cons] at hdepth
    obtain ⟨branches, hbranches, hm⟩ := readBranches_complete k hfit.right.tail rest depth hrest
      (by rw [List.length_append]; omega)
    refine ⟨_, readBranches_or hitems hbranches, ?_⟩
    rw [List.map_cons, List.sum_cons, language_sequence, hl, hm]

theorem readSequence_complete : ∀ {s : List Char} {l : Language Char}, IsSequence s l →
    CountsFit s → ∀ rest depth, EndsSequence rest → 3 * (s ++ rest).length + 2 ≤ depth →
      ∃ found, readSequence depth (s ++ rest) = .ok (found, rest) ∧ (found.map language).prod = l
  | _, _, .nil, _, rest, depth + 1, hrest, _ => ⟨[], readSequence_nil hrest, rfl⟩
  | _, _, @IsSequence.cons s t l m h k, hfit, rest, depth + 1, hrest, hdepth => by
    obtain ⟨c, s', hs, hbegins⟩ := h.begins
    have hread := readQuantified_complete h hfit.left hs (t ++ rest) depth
    subst hs
    rw [List.append_assoc, List.cons_append] at hdepth ⊢
    rw [List.length_cons] at hdepth
    obtain ⟨atom, behind, item, hatom, hquantified, hl⟩ := hread (by omega)
    have hitem := readQuantifiers_complete hquantified (k.readQuantifier_eq_none hrest)
      behind.length (Nat.le_refl _)
    rw [List.length_append] at hdepth
    obtain ⟨items, hitems, hm⟩ := readSequence_complete k hfit.right rest depth hrest (by omega)
    refine ⟨_, readSequence_cons hbegins hatom hitem hitems, ?_⟩
    rw [List.map_cons, List.prod_cons, hl, hm]

theorem readQuantified_complete : ∀ {s : List Char} {l : Language Char}, IsQuantified s l →
    CountsFit s → ∀ {c : Char} {t : List Char}, s = c :: t → ∀ rest depth,
      3 * (t ++ rest).length + 4 ≤ depth → ∃ atom behind item,
        readAtom depth c (t ++ rest) = .ok (atom, behind) ∧
        ReflTransGen Quantifies (atom, behind) (item, rest) ∧ language item = l
  | _, _, .atom h, hfit, c, t, heq, rest, depth, hdepth => by
    obtain ⟨atom, hatom, hl⟩ := readAtom_complete h hfit heq rest depth hdepth
    exact ⟨atom, rest, atom, hatom, .refl, hl⟩
  | _, _, @IsQuantified.quantify s q l r h hq, hfit, c, t, heq, rest, depth, hdepth => by
    obtain ⟨c', t', hs, -⟩ := h.begins
    have hread := readQuantified_complete h hfit.left hs (q ++ rest) depth
    subst hs
    cases heq
    have hassoc : t'.append q ++ rest = t' ++ (q ++ rest) := List.append_assoc t' q rest
    rw [hassoc] at hdepth ⊢
    obtain ⟨atom, behind, item, hatom, hquantified, hl⟩ := hread hdepth
    have hnext : Quantifies (item, q ++ rest) (item.repeated r, rest) :=
      ⟨r, readQuantifier_complete hq hfit.right rest, rfl⟩
    refine ⟨atom, behind, item.repeated r, hatom, hquantified.tail hnext, ?_⟩
    rw [language_repeated, hl]

theorem readAtom_complete : ∀ {s : List Char} {l : Language Char}, IsAtom s l →
    CountsFit s → ∀ {c : Char} {t : List Char}, s = c :: t → ∀ rest depth,
      3 * (t ++ rest).length + 4 ≤ depth →
        ∃ found, readAtom depth c (t ++ rest) = .ok (found, rest) ∧ language found = l
  | _, _, @IsAtom.group s l h, hfit, _, _, rfl, rest, depth + 1, hdepth => by
    have hassoc : s.append [')'] ++ rest = s ++ ')' :: rest := List.append_assoc s [')'] rest
    rw [hassoc] at hdepth ⊢
    obtain ⟨branches, hbranches, hl⟩ := readBranches_complete h hfit.tail.left (')' :: rest)
      depth (fun c hc => (Option.some.inj hc).symm) (by omega)
    refine ⟨_, readAtom_group hbranches, ?_⟩
    rw [language_group, language_ofBranches, hl]
  | _, _, @IsAtom.set s cls h, _, _, _, rfl, rest, depth + 1, _ => by
    have hassoc : s.append [']'] ++ rest = s ++ ']' :: rest := List.append_assoc s [']'] rest
    obtain ⟨s', hs, hset⟩ := readSet_ok h
    obtain rfl := List.append_cancel_right hs
    rw [hassoc]
    exact ⟨_, readAtom_set (hset rest), language_terminal cls⟩
  | _, _, .any, _, _, _, rfl, rest, depth + 1, _ => by
    exact ⟨_, readAtom_any, (language_terminal _).trans language_any⟩
  | _, _, .escape e, _, _, _, rfl, rest, depth + 1, _ =>
    ⟨_, readAtom_escape e, (language_terminal _).trans (language_ofEscaped _)⟩
  | _, _, @IsAtom.char c hc, _, _, _, rfl, rest, depth + 1, _ => by
    refine ⟨_, readAtom_char hc, ?_⟩
    rw [language_terminal, CharClass.language_char, ofProperty_eq]

end

/-! ## Whole patterns -/

theorem parse_eq_ok_iff {pattern : String} {e : Pattern} :
    parse pattern = .ok e ↔ readAll pattern.toList = .ok e := by
  unfold parse
  dsimp only
  split <;> simp_all

/-- What is parsed is generated by the grammar. -/
theorem parse_sound {pattern : String} (hfit : CountsFit pattern.toList) {e : Pattern}
    (h : parse pattern = .ok e) : IsChoice pattern.toList (language e) := by
  obtain ⟨⟨branches, rest⟩, hbranches, hend⟩ := bind_eq_ok_iff.1 (parse_eq_ok_iff.1 h)
  obtain ⟨s, hs, hchoice⟩ := (readsGenerated _).branches hfit hbranches
  dsimp only at hend
  split at hend
  · cases hend
    rw [List.append_nil] at hs
    rwa [language_simplify, language_ofBranches, hs]
  · cases hend

/-- What the grammar generates is parsed. -/
theorem parse_complete {pattern : String} (hfit : CountsFit pattern.toList) {l : Language Char}
    (h : IsChoice pattern.toList l) : ∃ e, parse pattern = .ok e ∧ language e = l := by
  obtain ⟨branches, hbranches, hl⟩ :=
    readBranches_complete h hfit [] _ (by simp [EndsChoice]) (Nat.le_refl _)
  rw [List.append_nil] at hbranches
  refine ⟨(ofBranches branches).simplify, parse_eq_ok_iff.2 ?_, ?_⟩
  · exact bind_eq_ok_iff.2 ⟨_, hbranches, rfl⟩
  · rw [language_simplify, language_ofBranches, hl]

/-- A pattern is parsed if and only if the grammar generates it, and the language of what it is
parsed as is the only one that the grammar gives it. -/
theorem reading_exact (pattern : String) (hfit : CountsFit pattern.toList) :
    ((∃ e, parse pattern = .ok e) ↔ ∃ l, IsChoice pattern.toList l) ∧
      ∀ e, parse pattern = .ok e → ∀ l, IsChoice pattern.toList l ↔ l = language e := by
  constructor
  · constructor
    · rintro ⟨e, he⟩
      exact ⟨language e, parse_sound hfit he⟩
    · rintro ⟨l, hl⟩
      obtain ⟨e, he, -⟩ := parse_complete hfit hl
      exact ⟨e, he⟩
  · intro e he l
    constructor
    · intro hl
      obtain ⟨found, hfound, rfl⟩ := parse_complete hfit hl
      rw [he] at hfound
      cases hfound
      rfl
    · rintro rfl
      exact parse_sound hfit he

/-- A choice of a repeated group and a character. -/
theorem reading_exact_group : ∃ e, parse "(ab)\x7b2\x7d|c" = .ok e ∧
    language e = (Repetition.between 2 (some 2)).language ({['a']} * {['b']}) + {['c']} := by
  have hfit : CountsFit "(ab)\x7b2\x7d|c".toList := countsFit_of_length_le (by simp)
  have hchar : ∀ c, c ∉ reserved → IsQuantified [c] {[c]} := fun c hc =>
    ofProperty_eq c ▸ .atom (.char hc)
  have hab : IsSequence ['a', 'b'] ({['a']} * {['b']}) := by
    simpa using IsSequence.cons (hchar 'a' (by decide)) (.cons (hchar 'b' (by decide)) .nil)
  have htwo : IsNumeral ['2'] 2 := ⟨by simp, by simp, rfl⟩
  have hgroup := IsSequence.cons (.quantify (.atom (.group (.one hab))) (.exactly htwo)) .nil
  have hc := IsSequence.cons (hchar 'c' (by decide)) .nil
  have hchoice := IsChoice.or hgroup (.one hc)
  rw [mul_one, mul_one] at hchoice
  obtain ⟨⟨-, hparsed⟩, hlanguage⟩ := reading_exact "(ab)\x7b2\x7d|c" hfit
  obtain ⟨e, he⟩ := hparsed ⟨_, hchoice⟩
  exact ⟨e, he, ((hlanguage e he _).1 hchoice).symm⟩

end LexChart.Pattern
