import LexChart.Expr.Language
import LexChart.Proofs.Automaton.Region
import Mathlib.Order.CompletePartialOrder
set_option autoImplicit false

/-!
# The language of a fragment

The words that lead from the entry of the fragment of an expression to its exit are the words of the
expression, a terminal standing for the one-symbol words that one of its labels reads.

That every word of the expression can be read is shown along the steps of the builder, each of which
keeps the paths that there are.  That nothing else can be read is shown by giving a language to each
state of the region: `Fits` says that no transition leads out of these languages, so that a word
read on the way to the exit lies in the language of the state it begins in.  A builder can be given
such languages whatever may follow behind its exit, which is what makes them fit together.
-/

namespace LexChart

open scoped Computability

section

variable {σ : Type} (l rest : Language σ)

theorem le_kstar_mul : rest ≤ l∗ * rest := by
  have hone := mul_le_mul_left (one_le_kstar (a := l)) rest
  rwa [one_mul] at hone

theorem mul_kstar_mul_le : l * (l∗ * rest) ≤ l∗ * rest := by
  rw [← mul_assoc]
  exact mul_le_mul_left mul_kstar_le_kstar rest

/-- At most so many words of a language, and a word of the rest behind them. -/
def upTo (count : Nat) : Language σ :=
  {w | ∃ taken ≤ count, w ∈ l ^ taken * rest}

theorem pow_mul_le_upTo {taken count : Nat} (h : taken ≤ count) :
    l ^ taken * rest ≤ upTo l rest count :=
  fun _ hw => ⟨taken, h, hw⟩

theorem le_upTo (count : Nat) : rest ≤ upTo l rest count := by
  have hzero := pow_mul_le_upTo l rest (Nat.zero_le count)
  rwa [pow_zero, one_mul] at hzero

theorem mul_upTo_le (count : Nat) : l * upTo l rest count ≤ upTo l rest (count + 1) := by
  intro w hw
  obtain ⟨u, hu, v, ⟨taken, htaken, hv⟩, rfl⟩ := Language.mem_mul.1 hw
  refine ⟨taken + 1, Nat.succ_le_succ htaken, ?_⟩
  rw [pow_succ', mul_assoc]
  exact Language.append_mem_mul hu hv

end

namespace Repetition

variable {σ : Type}

theorem language_of_bounds {r : Repetition} (h : r.lower = 1 ∧ r.upper = some 1)
    (l : Language σ) : r.language l = l := by
  ext w
  constructor
  · rintro ⟨count, ⟨hlower, hupper⟩, hw⟩
    have hcount : count = 1 := by
      have := hupper 1 h.2
      omega
    rwa [hcount, pow_one] at hw
  · intro hw
    refine ⟨1, ⟨Nat.le_of_eq h.1, fun most hmost => ?_⟩, by rwa [pow_one]⟩
    rw [h.2] at hmost
    exact Nat.le_of_eq (Option.some.inj hmost)

theorem lower_pow_mul_kstar_le {r : Repetition} (h : r.upper = none) (l : Language σ) :
    l ^ r.lower * l∗ ≤ r.language l := by
  intro w hw
  obtain ⟨u, hu, v, hv, rfl⟩ := Language.mem_mul.1 hw
  rw [Language.kstar_eq_iSup_pow, Language.mem_iSup] at hv
  obtain ⟨more, hv⟩ := hv
  refine ⟨r.lower + more, ⟨Nat.le_add_right _ _, fun most hmost => ?_⟩, ?_⟩
  · rw [h] at hmost
    cases hmost
  · rw [pow_add]
    exact Language.append_mem_mul hu hv

/-- Behind the words that are asked for, as many more may follow as are allowed. -/
theorem lower_pow_mul_upTo_le {r : Repetition} {most : Nat} (h : r.upper = some most)
    (l rest : Language σ) : l ^ r.lower * upTo l rest (most - r.lower) ≤ r.language l * rest := by
  intro w hw
  obtain ⟨u, hu, v, ⟨taken, htaken, hv⟩, rfl⟩ := Language.mem_mul.1 hw
  obtain ⟨x, hx, y, hy, rfl⟩ := Language.mem_mul.1 hv
  have hallows : r.Allows (r.lower + taken) := by
    refine ⟨Nat.le_add_right _ _, fun bound hbound => ?_⟩
    have := lower_le_upper h
    rw [h] at hbound
    cases hbound
    omega
  rw [← List.append_assoc]
  refine Language.append_mem_mul ⟨r.lower + taken, hallows, ?_⟩ hy
  rw [pow_add]
  exact Language.append_mem_mul hu hx

end Repetition

namespace Nfa

variable {L σ : Type} {reads : L → σ → Prop} {allowed : L → Prop}

/-- No transition out of a state from `base` on leads out of the languages of the states. -/
structure Fits (reads : L → σ → Prop) (base : Nat) (nfa : Nfa L) (a : Nat → Language σ) : Prop where
  null : ∀ p q, base ≤ p → nfa.Leaves p (.null q) → a q ≤ a p
  symbol : ∀ p q l c, base ≤ p → nfa.Leaves p (.symbol l q) → reads l c →
    ∀ w ∈ a q, c :: w ∈ a p

namespace Fits

variable {base entry : Nat} {nfa : Nfa L} {a b : Nat → Language σ}

/-- A word that is read lies in the language of the state it begins in, whatever follows in the
language of the state it ends in. -/
theorem append_mem (h : Fits reads base nfa a) (region : Region allowed base entry nfa) {p q : Nat}
    {w : List σ} (path : nfa.Path reads p w q) (hp : base ≤ p) {v : List σ} (hv : v ∈ a q) :
    w ++ v ∈ a p := by
  induction path with
  | nil => exact hv
  | null leaves _ ih =>
    exact h.null _ _ hp leaves (ih (region.inside _ _ hp leaves).1 hv)
  | symbol leaves stands _ ih =>
    exact h.symbol _ _ _ _ hp leaves stands _ (ih (region.inside _ _ hp leaves).1 hv)

/-- Only the languages of existing states matter. -/
theorem congr (h : Fits reads base nfa a) (region : Region allowed base entry nfa)
    (hab : ∀ id < nfa.size, b id = a id) : Fits reads base nfa b := by
  refine ⟨fun p q hp leaves => ?_, fun p q l c hp leaves stands w hw => ?_⟩
  · have hq := (region.inside p _ hp leaves).2.1
    rw [hab p leaves.lt, hab q hq]
    exact h.null p q hp leaves
  · have hq := (region.inside p _ hp leaves).2.1
    rw [hab q hq] at hw
    rw [hab p leaves.lt]
    exact h.symbol p q l c hp leaves stands w hw

theorem addState (h : Fits reads base nfa a) : Fits reads base nfa.addState.1 a :=
  ⟨fun p q hp leaves => h.null p q hp (leaves_addState.1 leaves),
    fun p q l c hp leaves => h.symbol p q l c hp (leaves_addState.1 leaves)⟩

/-- A state that is added may be given any language. -/
theorem exists_addState (h : Fits reads base nfa a) (region : Region allowed base entry nfa)
    (l : Language σ) : ∃ a', (∀ id < nfa.size, a' id = a id) ∧
      Fits reads base nfa.addState.1 a' ∧ a' nfa.size = l := by
  have hold : ∀ id < nfa.size, (Function.update a nfa.size l) id = a id :=
    fun id hid => Function.update_of_ne (Nat.ne_of_lt hid) _ _
  exact ⟨_, hold, (h.congr region hold).addState, Function.update_self ..⟩

/-- The region of an entry alone has no transitions. -/
theorem ofAddState (reads : L → σ → Prop) (nfa : Nfa L) (a : Nat → Language σ) :
    Fits reads nfa.size nfa.addState.1 a := by
  refine ⟨fun p q hp leaves => ?_, fun p q l c hp leaves => ?_⟩
  · exact absurd (leaves_addState.1 leaves).lt (Nat.not_lt.2 hp)
  · exact absurd (leaves_addState.1 leaves).lt (Nat.not_lt.2 hp)

theorem link (h : Fits reads base nfa a) (source target : Nat) (hle : a target ≤ a source) :
    Fits reads base (nfa.linked source target) a := by
  refine ⟨fun p q hp leaves => ?_, fun p q l c hp leaves => ?_⟩
  · rcases leaves_addTransition.1 leaves with leaves | ⟨rfl, _, heq⟩
    · exact h.null p q hp leaves
    · cases heq
      exact hle
  · rcases leaves_addTransition.1 leaves with leaves | ⟨_, _, heq⟩
    · exact h.symbol p q l c hp leaves
    · cases heq

theorem linkAll {links : List (Nat × Nat)} (h : Fits reads base nfa a)
    (hle : ∀ link ∈ links, a link.2 ≤ a link.1) : Fits reads base (nfa.linkedAll links) a := by
  induction links generalizing nfa with
  | nil => exact h
  | cons first rest ih =>
    exact ih (h.link first.1 first.2 (hle first List.mem_cons_self))
      fun link hlink => hle link (List.mem_cons_of_mem first hlink)

theorem connect (h : Fits reads base nfa a) {source target : Nat} {l : L}
    (hle : ∀ c, reads l c → ∀ w ∈ a target, c :: w ∈ a source) :
    Fits reads base (nfa.modifyState source fun s => s.addTransition (.symbol l target)) a := by
  refine ⟨fun p q hp leaves => ?_, fun p q l c hp leaves => ?_⟩
  · rcases leaves_addTransition.1 leaves with leaves | ⟨_, _, heq⟩
    · exact h.null p q hp leaves
    · cases heq
  · rcases leaves_addTransition.1 leaves with leaves | ⟨rfl, _, heq⟩
    · exact h.symbol p q l c hp leaves
    · cases heq
      exact hle c

/-- Languages for the states below `nfa.size` and for those of a region behind them fit together. -/
theorem append {nfa' : Nfa L} {entry' : Nat} (h : Fits reads base nfa a)
    (region : Region allowed base entry nfa) (grows : Grows nfa.size nfa nfa')
    (h' : Fits reads nfa.size nfa' b) (region' : Region allowed nfa.size entry' nfa') :
    Fits reads base nfa' fun id => if id < nfa.size then a id else b id := by
  refine ⟨fun p q hp leaves => ?_, fun p q l c hp leaves stands w hw => ?_⟩
  · by_cases hold : p < nfa.size
    · have leaves := (grows.leaves_iff_of_lt hold).1 leaves
      have hq : q < nfa.size := (region.inside p _ hp leaves).2.1
      rw [if_pos hq, if_pos hold]
      exact h.null p q hp leaves
    · have hp := Nat.not_lt.1 hold
      have hq : nfa.size ≤ q := (region'.inside p _ hp leaves).1
      rw [if_neg (Nat.not_lt.2 hq), if_neg hold]
      exact h'.null p q hp leaves
  · by_cases hold : p < nfa.size
    · have leaves := (grows.leaves_iff_of_lt hold).1 leaves
      have hq : q < nfa.size := (region.inside p _ hp leaves).2.1
      rw [if_pos hq] at hw
      rw [if_pos hold]
      exact h.symbol p q l c hp leaves stands w hw
    · have hp := Nat.not_lt.1 hold
      have hq : nfa.size ≤ q := (region'.inside p _ hp leaves).1
      rw [if_neg (Nat.not_lt.2 hq)] at hw
      rw [if_neg hold]
      exact h'.symbol p q l c hp leaves stands w hw

end Fits

end Nfa

namespace Building

variable {L σ : Type} {reads : L → σ → Prop} {allowed : L → Prop}

open Nfa

/-- A builder adds a fragment whose language is `l`: every word of `l` leads from its entry to its
exit, and whatever may follow behind the exit, the states of its region have languages that fit. -/
structure Denotes (reads : L → σ → Prop) (allowed : L → Prop) (builder : Building L Fragment)
    (l : Language σ) : Prop where
  framed : Framed allowed builder
  complete : ∀ (nfa : Nfa L) (w : List σ), w ∈ l →
    (builder nfa).2.Path reads (builder nfa).1.entry w (builder nfa).1.exit
  sound : ∀ (nfa : Nfa L) (rest : Language σ), ∃ a, Fits reads nfa.size (builder nfa).2 a ∧
    a (builder nfa).1.entry ≤ l * rest ∧ rest ≤ a (builder nfa).1.exit

section

variable {builder : Building L Fragment} {l : Language σ}

/-- The words read from the entry to the exit of a fragment. -/
theorem Denotes.path_iff (h : Denotes reads allowed builder l) (nfa : Nfa L) (w : List σ) :
    (builder nfa).2.Path reads (builder nfa).1.entry w (builder nfa).1.exit ↔ w ∈ l := by
  constructor
  · intro path
    obtain ⟨a, hfits, hentry, hexit⟩ := h.sound nfa 1
    have region := h.framed.region nfa
    have hmem := hfits.append_mem region path region.base_le (hexit Language.nil_mem_one)
    rw [List.append_nil] at hmem
    have hword := hentry hmem
    rwa [mul_one] at hword
  · exact h.complete nfa w

/-- A builder keeps the languages of the states that there are. -/
theorem Denotes.extend (h : Denotes reads allowed builder l) {base entry : Nat} {nfa : Nfa L}
    {a : Nat → Language σ} (region : Region allowed base entry nfa) (hfits : Fits reads base nfa a)
    (rest : Language σ) :
    ∃ b, (∀ id < nfa.size, b id = a id) ∧ Fits reads base (builder nfa).2 b ∧
      b (builder nfa).1.entry ≤ l * rest ∧ rest ≤ b (builder nfa).1.exit := by
  obtain ⟨b, hb, hentry, hexit⟩ := h.sound nfa rest
  refine ⟨_, fun id hid => if_pos hid, hfits.append region (h.framed.grows nfa) hb
    (h.framed.region nfa), ?_, ?_⟩
  · rwa [if_neg (Nat.not_lt.2 (h.framed.region nfa).base_le)]
  · rwa [if_neg (Nat.not_lt.2 (h.framed.le_exit nfa))]

end

/-! ## Terminals -/

/-- The one-symbol words that one of the labels reads. -/
def labelLanguage (reads : L → σ → Prop) (labels : List L) : Language σ :=
  {w | ∃ c, w = [c] ∧ ∃ l ∈ labels, reads l c}

theorem connectAll_leaves {source target : Nat} {labels : List L} {l : L} (hl : l ∈ labels)
    {nfa : Nfa L} (hlt : source < nfa.size) :
    (connectAll source target labels nfa).2.Leaves source (.symbol l target) := by
  induction labels generalizing nfa with
  | nil => exact nomatch hl
  | cons first rest ih =>
    by_cases hrest : l ∈ rest
    · exact ih hrest (by rw [size_modifyState]; exact hlt)
    · have hfirst : l = first := (List.mem_cons.1 hl).resolve_right hrest
      subst hfirst
      clear ih hl hrest
      have hnew : (nfa.modifyState source fun s => s.addTransition (.symbol l target)).Leaves source
          (.symbol l target) := leaves_addTransition.2 (.inr ⟨rfl, hlt, rfl⟩)
      show (connectAll source target rest
        (nfa.modifyState source fun s => s.addTransition (.symbol l target))).2.Leaves source _
      generalize nfa.modifyState source _ = nfa at *
      induction rest generalizing nfa with
      | nil => exact hnew
      | cons next rest ih =>
        exact ih (nfa.modifyState source fun s => s.addTransition (.symbol next target))
          (leaves_addTransition.2 (.inl hnew))

theorem connectAll_fits {base source target : Nat} {labels : List L} {nfa : Nfa L}
    {a : Nat → Language σ} (h : Fits reads base nfa a)
    (hle : ∀ l ∈ labels, ∀ c, reads l c → ∀ w ∈ a target, c :: w ∈ a source) :
    Fits reads base (connectAll source target labels nfa).2 a := by
  induction labels generalizing nfa with
  | nil => exact h
  | cons first rest ih =>
    exact ih (h.connect (hle first List.mem_cons_self))
      fun l hl => hle l (List.mem_cons_of_mem first hl)

theorem denotes_symbols {labels : List L} (hlabels : ∀ l ∈ labels, allowed l) :
    Denotes reads allowed (symbols labels) (labelLanguage reads labels) := by
  refine ⟨framed_symbols hlabels, ?_, ?_⟩
  · rintro nfa w ⟨c, rfl, l, hl, stands⟩
    have hlt := Nat.lt_trans (size_lt_addState nfa) (size_lt_addState nfa.addState.1)
    exact .symbol (connectAll_leaves hl hlt) stands (.nil _)
  · intro nfa rest
    have hexit : nfa.addState.1.addState.2 = nfa.size + 1 := size_addState nfa
    refine ⟨fun id => if id = nfa.size then labelLanguage reads labels * rest else rest, ?_, ?_, ?_⟩
    · refine connectAll_fits (Fits.ofAddState reads nfa _).addState fun l hl c stands w hw => ?_
      change w ∈ if nfa.addState.1.addState.2 = nfa.size then _ else _ at hw
      rw [hexit, if_neg (by omega)] at hw
      show c :: w ∈ if nfa.size = nfa.size then _ else _
      rw [if_pos rfl]
      exact Language.append_mem_mul (a := [c]) ⟨c, rfl, l, hl, stands⟩ hw
    · show (if nfa.size = nfa.size then _ else _) ≤ _
      rw [if_pos rfl]
    · show rest ≤ if nfa.addState.1.addState.2 = nfa.size then _ else _
      rw [hexit, if_neg (by omega)]

/-! ## Choice and sequence -/

/-- Builders in the order of the languages that they denote. -/
abbrev DenotesAll (reads : L → σ → Prop) (allowed : L → Prop)
    (builders : List (Building L Fragment)) (ls : List (Language σ)) : Prop :=
  List.Forall₂ (Denotes reads allowed) builders ls

theorem DenotesAll.framed {builders : List (Building L Fragment)} {ls : List (Language σ)}
    (h : DenotesAll reads allowed builders ls) : ∀ b ∈ builders, Framed allowed b := by
  induction h with
  | nil => exact fun _ hb => nomatch hb
  | cons hb _ ih =>
    intro b hmem
    rcases List.mem_cons.1 hmem with rfl | hmem
    · exact hb.framed
    · exact ih b hmem

/-- A word of a fragment leads from the state where the fragment is attached to its exit. -/
theorem Denotes.attached_path {builder : Building L Fragment} {l : Language σ}
    (h : Denotes reads allowed builder l) {last : Nat} {nfa : Nfa L} (hlt : last < nfa.size)
    {w : List σ} (hw : w ∈ l) :
    (attached builder last nfa).Path reads last w (builder nfa).1.exit := by
  have hsize := (h.framed.grows nfa).size_le
  have hgrows := grows_addTransition 0 (builder nfa).2 (.null (builder nfa).1.entry)
    (Nat.zero_le last)
  exact .null (leaves_linked _ _ (Nat.lt_of_lt_of_le hlt hsize)) (hgrows.path (h.complete nfa w hw))

/-- A word of a fragment leads from the state that the fragment is entered from to the state that it
is left for. -/
theorem Denotes.bridged_path {builder : Building L Fragment} {l : Language σ}
    (h : Denotes reads allowed builder l) {entry exit : Nat} {nfa : Nfa L} (hlt : entry < nfa.size)
    {w : List σ} (hw : w ∈ l) : (bridged builder entry exit nfa).Path reads entry w exit := by
  have hgrows := grows_addTransition 0 (attached builder entry nfa) (.null exit)
    (Nat.zero_le (builder nfa).1.exit)
  have hexit : (builder nfa).1.exit < (attached builder entry nfa).size := by
    rw [size_attached]
    exact h.framed.exit_lt nfa
  have hpath := (hgrows.path (h.attached_path hlt hw)).append
    (.null (leaves_linked (attached builder entry nfa) exit hexit) (.nil exit))
  rwa [List.append_nil] at hpath

/-- A fragment can be attached to a state whose language holds its words, each with what may follow
behind the exit. -/
theorem Denotes.attached_fits {builder : Building L Fragment} {l : Language σ}
    (h : Denotes reads allowed builder l) {base entry last : Nat} {nfa : Nfa L}
    {a : Nat → Language σ} {rest : Language σ} (region : Region allowed base entry nfa)
    (hlt : last < nfa.size) (hfits : Fits reads base nfa a) (hle : l * rest ≤ a last) :
    ∃ a', (∀ id < nfa.size, a' id = a id) ∧ Fits reads base (attached builder last nfa) a' ∧
      a' (builder nfa).1.entry ≤ l * rest ∧ rest ≤ a' (builder nfa).1.exit := by
  obtain ⟨a', hagree, hfits', hentry, hexit⟩ := h.extend region hfits rest
  refine ⟨a', hagree, hfits'.link last _ ?_, hentry, hexit⟩
  rw [hagree last hlt]
  exact le_trans hentry hle

theorem branches_complete {base entry : Nat} {builders : List (Building L Fragment)}
    {ls : List (Language σ)} (h : DenotesAll reads allowed builders ls) {nfa : Nfa L}
    (region : Region allowed base entry nfa) (exit : Nat) (hbase : base ≤ exit)
    (hlt : exit < nfa.size)
    (hne : exit ≠ entry) {w : List σ} (hw : ∃ l ∈ ls, w ∈ l) :
    (branches entry exit builders nfa).2.Path reads entry w exit := by
  induction h generalizing nfa with
  | nil =>
    obtain ⟨l, hl, _⟩ := hw
    exact nomatch hl
  | @cons b l builders ls hb hrest ih =>
    have hbranch := bridged_steps hb.framed region hbase hlt hne
    obtain ⟨m, hm, hwm⟩ := hw
    rcases List.mem_cons.1 hm with rfl | hm
    · have hall := branches_steps (DenotesAll.framed hrest) hbranch.region exit hbase
        hbranch.last_lt hne
      exact hall.grows.path (hb.bridged_path region.entry_lt hwm)
    · exact ih hbranch.region hbranch.last_lt ⟨m, hm, hwm⟩

theorem branches_fits {base entry : Nat} {builders : List (Building L Fragment)}
    {ls : List (Language σ)} (h : DenotesAll reads allowed builders ls) {nfa : Nfa L}
    {a : Nat → Language σ} (region : Region allowed base entry nfa) (exit : Nat)
    (hbase : base ≤ exit) (hlt : exit < nfa.size) (hne : exit ≠ entry)
    (hfits : Fits reads base nfa a)
    (hle : ∀ l ∈ ls, l * a exit ≤ a entry) :
    ∃ a', (∀ id < nfa.size, a' id = a id) ∧
      Fits reads base (branches entry exit builders nfa).2 a' := by
  induction h generalizing nfa a with
  | nil => exact ⟨a, fun _ _ => rfl, hfits⟩
  | @cons b l builders ls hb hrest ih =>
    have hentry := region.entry_lt
    have hbranch := bridged_steps hb.framed region hbase hlt hne
    have hsize := hbranch.grows.size_le
    obtain ⟨a₁, hagree, hfits₁, _, hout_le⟩ := hb.attached_fits region hentry hfits
      (hle l List.mem_cons_self)
    have hlinked := hfits₁.link (b nfa).1.exit exit (by
      rw [hagree exit hlt]
      exact hout_le)
    obtain ⟨a₂, hagree₂, hfits₂⟩ := ih hbranch.region hbranch.last_lt hlinked fun m hm => by
      rw [hagree entry hentry, hagree exit hlt]
      exact hle m (List.mem_cons_of_mem l hm)
    exact ⟨a₂, fun id hid => (hagree₂ id (Nat.lt_of_lt_of_le hid hsize)).trans (hagree id hid),
      hfits₂⟩

theorem mem_sum {ls : List (Language σ)} {w : List σ} : w ∈ ls.sum ↔ ∃ l ∈ ls, w ∈ l := by
  induction ls with
  | nil => simp
  | cons l ls ih =>
    rw [List.sum_cons, Language.mem_add, ih]
    simp only [List.mem_cons, exists_eq_or_imp]

/-- A choice denotes the union. -/
theorem denotes_choice {builders : List (Building L Fragment)} {ls : List (Language σ)}
    (h : DenotesAll reads allowed builders ls) :
    Denotes reads allowed (choice builders) ls.sum := by
  refine ⟨framed_choice h.framed, ?_, ?_⟩
  · intro nfa w hw
    have hentry := Region.ofAddState allowed nfa
    have hexit := StepsTo.addState hentry
    exact branches_complete h hexit.region nfa.addState.1.size hexit.le_last hexit.last_lt
      (Nat.ne_of_gt hentry.entry_lt) (mem_sum.1 hw)
  · intro nfa rest
    have hentry := Region.ofAddState allowed nfa
    have hexit := StepsTo.addState hentry
    have hne := Nat.ne_of_gt hentry.entry_lt
    let a : Nat → Language σ := fun id => if id = nfa.size then ls.sum * rest else rest
    have ha_entry : a nfa.size = ls.sum * rest := if_pos rfl
    have ha_exit : a nfa.addState.1.size = rest := if_neg hne
    obtain ⟨a', hagree, hfits⟩ := branches_fits h hexit.region nfa.addState.1.size hexit.le_last
      hexit.last_lt hne (Fits.ofAddState reads nfa a).addState (fun l hl => by
        rw [ha_entry, ha_exit]
        exact mul_le_mul_left (fun w hw => mem_sum.2 ⟨l, hl, hw⟩) rest)
    refine ⟨a', hfits, ?_, ?_⟩
    · show a' nfa.size ≤ _
      rw [hagree _ hexit.region.entry_lt, ha_entry]
    · show rest ≤ a' nfa.addState.1.size
      rw [hagree _ hexit.last_lt, ha_exit]

theorem chain_complete {base entry : Nat} {builders : List (Building L Fragment)}
    {ls : List (Language σ)} (h : DenotesAll reads allowed builders ls) {nfa : Nfa L}
    (region : Region allowed base entry nfa) (last : Nat) (hbase : base ≤ last)
    (hlt : last < nfa.size) {w : List σ} (hw : w ∈ ls.prod) :
    (chain last builders nfa).2.Path reads last w (chain last builders nfa).1 := by
  induction h generalizing nfa last w with
  | nil =>
    rw [List.prod_nil, Language.mem_one] at hw
    subst hw
    exact .nil last
  | @cons b l builders ls hb hrest ih =>
    have hitem := attached_steps hb.framed region hbase
    have hchain := chain_steps (DenotesAll.framed hrest) hitem.region _ hitem.le_last hitem.last_lt
    rw [List.prod_cons] at hw
    obtain ⟨u, hu, v, hv, rfl⟩ := Language.mem_mul.1 hw
    exact (hchain.grows.path (hb.attached_path hlt hu)).append
      (ih hitem.region _ hitem.le_last hitem.last_lt hv)

theorem chain_fits {base entry : Nat} {builders : List (Building L Fragment)}
    {ls : List (Language σ)} (h : DenotesAll reads allowed builders ls) {nfa : Nfa L}
    {a : Nat → Language σ} {rest : Language σ} (region : Region allowed base entry nfa)
    (last : Nat) (hbase : base ≤ last) (hlt : last < nfa.size) (hfits : Fits reads base nfa a)
    (hle : ls.prod * rest ≤ a last) :
    ∃ a', (∀ id < nfa.size, a' id = a id) ∧
      Fits reads base (chain last builders nfa).2 a' ∧
      rest ≤ a' (chain last builders nfa).1 := by
  induction h generalizing nfa last a with
  | nil =>
    rw [List.prod_nil, one_mul] at hle
    exact ⟨a, fun _ _ => rfl, hfits, hle⟩
  | @cons b l builders ls hb hrest ih =>
    have hitem := attached_steps hb.framed region hbase
    rw [List.prod_cons, mul_assoc] at hle
    obtain ⟨a₁, hagree, hfits₁, _, hout_le⟩ := hb.attached_fits region hlt hfits hle
    obtain ⟨a₂, hagree₂, hend⟩ :=
      ih hitem.region _ hitem.le_last hitem.last_lt hfits₁ hout_le
    have hsize := hitem.grows.size_le
    exact ⟨a₂, fun id hid => (hagree₂ id (by omega)).trans (hagree id hid), hend⟩

/-- A sequence denotes the concatenation. -/
theorem denotes_sequence {builders : List (Building L Fragment)} {ls : List (Language σ)}
    (h : DenotesAll reads allowed builders ls) :
    Denotes reads allowed (sequence builders) ls.prod := by
  refine ⟨framed_sequence h.framed, ?_, ?_⟩
  · intro nfa w hw
    exact chain_complete h (Region.ofAddState allowed nfa) nfa.size (Nat.le_refl _)
      (size_lt_addState nfa) hw
  · intro nfa rest
    obtain ⟨a', hagree, hfits, hexit⟩ := chain_fits h (Region.ofAddState allowed nfa)
      nfa.size (Nat.le_refl _) (size_lt_addState nfa) (Fits.ofAddState reads nfa fun _ => ls.prod * rest) (le_refl _)
    refine ⟨a', hfits, ?_, hexit⟩
    show a' nfa.size ≤ _
    rw [hagree _ (size_lt_addState nfa)]

/-! ## Repetition -/

section

variable {builder : Building L Fragment} {l : Language σ}

/-- With a null transition from its end to its beginning, a path can be taken again and again. -/
theorem path_pow {nfa : Nfa L} {entry exit : Nat}
    (hpath : ∀ w ∈ l, nfa.Path reads entry w exit) (hback : nfa.Leaves exit (.null entry))
    (more : Nat) {w : List σ} (hw : w ∈ l ^ more) : nfa.Path reads exit w exit := by
  induction more generalizing w with
  | zero =>
    rw [pow_zero, Language.mem_one] at hw
    subst hw
    exact .nil exit
  | succ more ih =>
    rw [pow_succ'] at hw
    obtain ⟨u, hu, v, hv, rfl⟩ := Language.mem_mul.1 hw
    exact .null hback ((hpath u hu).append (ih hv))

theorem copies_complete (h : Denotes reads allowed builder l) {base entry : Nat} (last : Nat)
    (copy : Option Fragment) (count : Nat) {nfa : Nfa L} (region : Region allowed base entry nfa)
    (hbase : base ≤ last) (hlt : last < nfa.size)
    (hcopy : ∀ c, copy = some c → c.exit = last ∧ ∀ w ∈ l, nfa.Path reads c.entry w c.exit) :
    (∀ w ∈ l ^ count, (copies builder last copy count nfa).2.Path reads last w
        (copies builder last copy count nfa).1.1) ∧
      ∀ c, (copies builder last copy count nfa).1.2 = some c →
        c.exit = (copies builder last copy count nfa).1.1 ∧
          ∀ w ∈ l, (copies builder last copy count nfa).2.Path reads c.entry w c.exit := by
  induction count generalizing nfa last copy with
  | zero =>
    refine ⟨fun w hw => ?_, hcopy⟩
    rw [pow_zero, Language.mem_one] at hw
    subst hw
    exact .nil last
  | succ count ih =>
    have hitem := attached_steps h.framed region hbase
    have hlink := grows_addTransition 0 (builder nfa).2 (.null (builder nfa).1.entry)
      (Nat.zero_le last)
    obtain ⟨hrest, hend⟩ := ih _ (some (builder nfa).1) hitem.region hitem.le_last hitem.last_lt (by
      intro c hc
      obtain rfl := Option.some.inj hc
      exact ⟨rfl, fun w hw => hlink.path (h.complete nfa w hw)⟩)
    refine ⟨fun w hw => ?_, hend⟩
    rw [pow_succ'] at hw
    obtain ⟨u, hu, v, hv, rfl⟩ := Language.mem_mul.1 hw
    obtain ⟨hcopies, -⟩ := copies_steps h.framed _ (some (builder nfa).1) count hitem.region
      hitem.le_last hitem.last_lt (copyWithin_attached h.framed region hbase)
    exact (hcopies.grows.path (h.attached_path hlt hu)).append (hrest v hv)

theorem copies_fits (h : Denotes reads allowed builder l) {base entry : Nat} (last : Nat)
    (copy : Option Fragment) (count : Nat) {nfa : Nfa L} {a : Nat → Language σ}
    {rest : Language σ} (region : Region allowed base entry nfa) (hbase : base ≤ last)
    (hlt : last < nfa.size) (hfits : Fits reads base nfa a) (hle : l ^ count * rest ≤ a last)
    (hcopy : count = 0 → ∀ c, copy = some c → a c.entry ≤ l * rest) :
    ∃ a', (∀ id < nfa.size, a' id = a id) ∧
      Fits reads base (copies builder last copy count nfa).2 a' ∧
      rest ≤ a' (copies builder last copy count nfa).1.1 ∧
      ∀ c, (copies builder last copy count nfa).1.2 = some c → a' c.entry ≤ l * rest := by
  induction count generalizing nfa last copy a with
  | zero =>
    rw [pow_zero, one_mul] at hle
    exact ⟨a, fun _ _ => rfl, hfits, hle, hcopy rfl⟩
  | succ count ih =>
    have hitem := attached_steps h.framed region hbase
    rw [pow_succ', mul_assoc] at hle
    obtain ⟨a₁, hagree, hfits₁, hin_le, hout_le⟩ := h.attached_fits region hlt hfits hle
    obtain ⟨a₂, hagree₂, hend⟩ := ih _ (some (builder nfa).1) hitem.region hitem.le_last
      hitem.last_lt hfits₁ hout_le (by
        intro hcount c hc
        obtain rfl := Option.some.inj hc
        rwa [hcount, pow_zero, one_mul] at hin_le)
    have hsize := hitem.grows.size_le
    exact ⟨a₂, fun id hid => (hagree₂ id (by omega)).trans (hagree id hid), hend⟩

/-- Some copy is made unless none is asked for. -/
theorem copies_eq_none (builder : Building L Fragment) (last : Nat) (copy : Option Fragment)
    (count : Nat) (nfa : Nfa L) :
    (copies builder last copy count nfa).1.2 = none ↔ count = 0 ∧ copy = none := by
  induction count generalizing nfa last copy with
  | zero =>
    show copy = none ↔ 0 = 0 ∧ copy = none
    simp
  | succ count ih =>
    apply (ih _ (some (builder nfa).1) (attached builder last nfa)).trans
    simp

theorem optionalCopies_complete (h : Denotes reads allowed builder l) {base entry : Nat}
    (last exit count : Nat) {nfa : Nfa L} (region : Region allowed base entry nfa)
    (hbase : base ≤ last)
    (hlt : last < nfa.size) (hexit : base ≤ exit) (hexit_lt : exit < nfa.size)
    (hne : exit ≠ entry) {taken : Nat} (htaken : taken ≤ count) {w : List σ}
    (hw : w ∈ l ^ taken) :
    ((optionalCopies builder last exit count nfa).2.linked
      (optionalCopies builder last exit count nfa).1 exit).Path reads last w exit := by
  induction count generalizing nfa last taken w with
  | zero =>
    obtain rfl : taken = 0 := Nat.le_zero.1 htaken
    rw [pow_zero, Language.mem_one] at hw
    subst hw
    exact .null (leaves_linked nfa exit hlt) (.nil exit)
  | succ count ih =>
    have hitem := attachedOptional_steps h.framed region hbase hexit hexit_lt hne
    have hexit_size := Nat.lt_of_lt_of_le hexit_lt hitem.grows.size_le
    have hcopies := optionalCopies_steps h.framed _ exit count hitem.region hitem.le_last
      hitem.last_lt hexit hexit_size hne
    have hrest := hcopies.grows.trans (grows_addTransition base _ (.null exit) hcopies.le_last)
    have hlast_lt := Nat.lt_of_lt_of_le hlt (h.framed.grows nfa).size_le
    let links := optionalLinks last (builder nfa).1 exit
    cases taken with
    | zero =>
      rw [pow_zero, Language.mem_one] at hw
      subst hw
      have hskip : (last, exit) ∈ links := by simp [links, optionalLinks]
      exact .null (hrest.leaves _ _ (leaves_linkedAll _ hskip hlast_lt)) (.nil exit)
    | succ taken =>
      rw [pow_succ'] at hw
      obtain ⟨u, hu, v, hv, rfl⟩ := Language.mem_mul.1 hw
      have htail := ih _ hitem.region hitem.le_last hitem.last_lt hexit_size
        (Nat.le_of_succ_le_succ htaken) hv
      have hin : (last, (builder nfa).1.entry) ∈ links := by simp [links, optionalLinks]
      have hcopy := (grows_linkedAll _ links).path (h.complete nfa u hu)
      exact .null (hrest.leaves _ _ (leaves_linkedAll _ hin hlast_lt))
        ((hrest.path hcopy).append htail)

theorem optionalCopies_fits (h : Denotes reads allowed builder l) {base entry : Nat}
    (last exit count : Nat) {nfa : Nfa L} {a : Nat → Language σ}
    (region : Region allowed base entry nfa)
    (hbase : base ≤ last) (hlt : last < nfa.size) (hexit : base ≤ exit)
    (hexit_lt : exit < nfa.size) (hne : exit ≠ entry) (hfits : Fits reads base nfa a)
    (hle : upTo l (a exit) count ≤ a last) :
    ∃ a', (∀ id < nfa.size, a' id = a id) ∧
      Fits reads base (optionalCopies builder last exit count nfa).2 a' ∧
      a exit ≤ a' (optionalCopies builder last exit count nfa).1 := by
  induction count generalizing nfa last a with
  | zero =>
    exact ⟨a, fun _ _ => rfl, hfits, le_trans (le_upTo l _ 0) hle⟩
  | succ count ih =>
    have hitem := attachedOptional_steps h.framed region hbase hexit hexit_lt hne
    have hsize := hitem.grows.size_le
    -- Behind the exit of this copy as many more may follow as are left.
    obtain ⟨a₁, hagree, hfits₁, hin_le, hout_le⟩ := h.extend region hfits (upTo l (a exit) count)
    have hskip : a₁ exit ≤ a₁ last := by
      rw [hagree exit hexit_lt, hagree last hlt]
      exact le_trans (le_upTo l _ _) hle
    have hin : a₁ (builder nfa).1.entry ≤ a₁ last := by
      rw [hagree last hlt]
      exact le_trans hin_le (le_trans (mul_upTo_le l _ count) hle)
    obtain ⟨a₂, hagree₂, hfits₂, hend⟩ := ih _ hitem.region hitem.le_last hitem.last_lt (by omega)
      ((hfits₁.link last exit hskip).link last _ hin) (by rwa [hagree exit hexit_lt])
    refine ⟨a₂, fun id hid => (hagree₂ id (by omega)).trans (hagree id hid), hfits₂, ?_⟩
    rwa [hagree exit hexit_lt] at hend

/-- A loop denotes any number of words of what it repeats. -/
theorem loop_complete (h : Denotes reads allowed builder l) {base entry : Nat} {nfa : Nfa L}
    (region : Region allowed base entry nfa) {w : List σ} (hw : w ∈ l∗) :
    (loop builder entry nfa).2.Path reads entry w (loop builder entry nfa).1.exit := by
  have hentry := region.entry_lt
  have hsize := (h.framed.grows nfa).size_le
  have hexit_lt := h.framed.exit_lt nfa
  have hexit_size := size_addState (builder nfa).2
  have hentry_size : entry < (builder nfa).2.addState.1.size := by omega
  have hcopy_size : (builder nfa).1.exit < (builder nfa).2.addState.1.size := by omega
  rw [loop_apply]
  dsimp only
  let links := loopLinks entry (builder nfa).1 (builder nfa).2.size
  have hin : (entry, (builder nfa).1.entry) ∈ links := by simp [links, loopLinks]
  have hskip : (entry, (builder nfa).2.size) ∈ links := by simp [links, loopLinks]
  have hout : ((builder nfa).1.exit, (builder nfa).2.size) ∈ links := by simp [links, loopLinks]
  have hback : ((builder nfa).1.exit, (builder nfa).1.entry) ∈ links := by simp [links, loopLinks]
  have hgrows := (grows_addState 0 (builder nfa).2 (Nat.zero_le _)).trans (grows_linkedAll _ links)
  have hcopy := fun w hw => hgrows.path (h.complete nfa w hw)
  rw [Language.kstar_eq_iSup_pow, Language.mem_iSup] at hw
  obtain ⟨taken, hw⟩ := hw
  cases taken with
  | zero =>
    rw [pow_zero, Language.mem_one] at hw
    subst hw
    exact .null (leaves_linkedAll _ hskip hentry_size) (.nil _)
  | succ more =>
    rw [pow_succ'] at hw
    obtain ⟨u, hu, v, hv, rfl⟩ := Language.mem_mul.1 hw
    have hagain := (path_pow hcopy (leaves_linkedAll _ hback hcopy_size) more hv).append
      (.null (leaves_linkedAll _ hout hcopy_size) (.nil _))
    rw [List.append_nil] at hagain
    exact .null (leaves_linkedAll _ hin hentry_size) ((hcopy u hu).append hagain)

theorem loop_fits (h : Denotes reads allowed builder l) {base entry : Nat} {nfa : Nfa L}
    {a : Nat → Language σ} {rest : Language σ} (region : Region allowed base entry nfa)
    (hfits : Fits reads base nfa a) (hle : l∗ * rest ≤ a entry) :
    ∃ a', (∀ id < nfa.size, a' id = a id) ∧ Fits reads base (loop builder entry nfa).2 a' ∧
      rest ≤ a' (loop builder entry nfa).1.exit := by
  have hentry := region.entry_lt
  have hsize := (h.framed.grows nfa).size_le
  have hentry_lt := (h.framed.region nfa).entry_lt
  have hexit_lt := h.framed.exit_lt nfa
  have hpass := le_kstar_mul l rest
  have hagain := mul_kstar_mul_le l rest
  obtain ⟨a₁, hagree, hfits₁, hin_le, hout_le⟩ := h.extend region hfits (l∗ * rest)
  obtain ⟨a₂, hold₂, hfits₂, hexit₂⟩ :=
    hfits₁.exists_addState (StepsTo.build h.framed region).region rest
  rw [loop_apply]
  refine ⟨a₂, fun id hid => (hold₂ id (by omega)).trans (hagree id hid), hfits₂.linkAll ?_,
    le_of_eq hexit₂.symm⟩
  have hentry₂ : a₂ entry = a entry := (hold₂ entry (by omega)).trans (hagree entry hentry)
  have hcopy₂ := hold₂ _ hentry_lt
  have hcopy_exit₂ := hold₂ _ hexit_lt
  simp only [loopLinks, List.forall_mem_cons]
  refine ⟨?_, ?_, ?_, ?_, List.forall_mem_nil _⟩
  · rw [hcopy₂, hentry₂]
    exact le_trans hin_le (le_trans hagain hle)
  · rw [hexit₂, hentry₂]
    exact le_trans hpass hle
  · rw [hexit₂, hcopy_exit₂]
    exact le_trans hpass hout_le
  · rw [hcopy₂, hcopy_exit₂]
    exact le_trans hin_le (le_trans hagain hout_le)

theorem repeated_complete (h : Denotes reads allowed builder l) (r : Repetition)
    (honce : ¬ (r.lower = 1 ∧ r.upper = some 1)) (nfa : Nfa L) {w : List σ}
    (hw : w ∈ r.language l) :
    (repeated r builder nfa).2.Path reads (repeated r builder nfa).1.entry w
      (repeated r builder nfa).1.exit := by
  obtain ⟨hcopies, -⟩ := copies_new_steps h.framed r.lower nfa
  obtain ⟨hpath, hcopy_path⟩ := copies_complete h nfa.size none r.lower
    (Region.ofAddState allowed nfa) (Nat.le_refl _) (size_lt_addState nfa) (fun c hc => nomatch hc)
  have hnone := copies_eq_none builder nfa.size none r.lower nfa.addState.1
  rw [repeated_apply r builder nfa honce]
  generalize copies builder nfa.size none r.lower nfa.addState.1 = answer at *
  obtain ⟨⟨last, copy⟩, nfa₁⟩ := answer
  dsimp only at *
  obtain ⟨count, ⟨hlower, hupper⟩, hw⟩ := hw
  obtain ⟨more, rfl⟩ := Nat.exists_eq_add_of_le hlower
  rw [pow_add] at hw
  obtain ⟨u, hu, v, hv, rfl⟩ := Language.mem_mul.1 hw
  cases hmost : r.upper with
  | none =>
    cases copy with
    | none =>
      have hzero := (hnone.1 rfl).1
      rw [hzero, pow_zero, Language.mem_one] at hu
      subst hu
      apply loop_complete h hcopies.region
      rw [Language.kstar_eq_iSup_pow, Language.mem_iSup]
      exact ⟨more, hv⟩
    | some copy =>
      obtain ⟨rfl, hagain⟩ := hcopy_path copy rfl
      have hgrows := grows_addTransition 0 nfa₁ (.null copy.entry) (Nat.zero_le copy.exit)
      have hback := leaves_linked nfa₁ copy.entry hcopies.last_lt
      exact (hgrows.path (hpath u hu)).append
        (path_pow (fun w hw => hgrows.path (hagain w hw)) hback more hv)
  | some most =>
    have hexit := StepsTo.addState hcopies.region
    have htaken : more ≤ most - r.lower := by
      have := hupper most hmost
      omega
    have hrest := optionalCopies_complete h last nfa₁.size (most - r.lower) hexit.region
      hcopies.le_last (Nat.lt_trans hcopies.last_lt hexit.last_lt) hexit.le_last hexit.last_lt
      (Nat.ne_of_gt hcopies.region.entry_lt) htaken hv
    have hoptional := optional_steps h.framed last (most - r.lower) hcopies.region hcopies.le_last
      hcopies.last_lt
    exact (hoptional.grows.path (hpath u hu)).append hrest

theorem repeated_fits (h : Denotes reads allowed builder l) (r : Repetition)
    (honce : ¬ (r.lower = 1 ∧ r.upper = some 1)) (nfa : Nfa L) (rest : Language σ) :
    ∃ a, Fits reads nfa.size (repeated r builder nfa).2 a ∧
      a (repeated r builder nfa).1.entry ≤ r.language l * rest ∧
      rest ≤ a (repeated r builder nfa).1.exit := by
  have hlt := size_lt_addState nfa
  have hentry := Region.ofAddState allowed nfa
  have hstart := Fits.ofAddState reads nfa fun _ => r.language l * rest
  obtain ⟨hcopies, -⟩ := copies_new_steps h.framed r.lower nfa
  obtain ⟨-, hcopy_path⟩ := copies_complete h nfa.size none r.lower hentry (Nat.le_refl _) hlt
    (fun c hc => nomatch hc)
  have hnone := copies_eq_none builder nfa.size none r.lower nfa.addState.1
  have hfits := fun rest' (hle : l ^ r.lower * rest' ≤ r.language l * rest) =>
    copies_fits h nfa.size none r.lower hentry (Nat.le_refl _) hlt hstart hle
      (fun _ c hc => nomatch hc)
  rw [repeated_apply r builder nfa honce]
  generalize copies builder nfa.size none r.lower nfa.addState.1 = answer at *
  obtain ⟨⟨last, copy⟩, nfa₁⟩ := answer
  dsimp only at *
  have hsize := hcopies.grows.size_le
  cases hmost : r.upper with
  | none =>
    have hle : l ^ r.lower * (l∗ * rest) ≤ r.language l * rest := by
      rw [← mul_assoc]
      exact mul_le_mul_left (Repetition.lower_pow_mul_kstar_le hmost l) rest
    obtain ⟨a₁, hagree, hfits₁, hlast, hcopy_le⟩ := hfits (l∗ * rest) hle
    cases copy with
    | none =>
      have hzero := (hnone.1 rfl).1
      rw [hzero, pow_zero, one_mul] at hle
      rw [← hagree _ hlt] at hle
      obtain ⟨a₂, hagree₂, hfits₂, hexit⟩ := loop_fits h hcopies.region hfits₁ hle
      refine ⟨a₂, hfits₂, ?_, hexit⟩
      show a₂ nfa.size ≤ _
      rw [hagree₂ _ (by omega), hagree _ hlt]
    | some copy =>
      obtain ⟨rfl, -⟩ := hcopy_path copy rfl
      refine ⟨a₁, hfits₁.link _ _ (le_trans (hcopy_le copy rfl)
        (le_trans (mul_kstar_mul_le l rest) hlast)), ?_, le_trans (le_kstar_mul l rest) hlast⟩
      show a₁ nfa.size ≤ _
      rw [hagree _ hlt]
  | some most =>
    -- Behind the copies that are asked for as many more may follow as are allowed.
    obtain ⟨a₁, hagree, hfits₁, hlast, -⟩ :=
      hfits (upTo l rest (most - r.lower)) (Repetition.lower_pow_mul_upTo_le hmost l rest)
    obtain ⟨a₂, hold₂, hfits₂, hexit₂⟩ := hfits₁.exists_addState hcopies.region rest
    have hexit := StepsTo.addState hcopies.region
    have hlast_lt := Nat.lt_trans hcopies.last_lt hexit.last_lt
    obtain ⟨a₃, hagree₃, hfits₃, hout⟩ := optionalCopies_fits h last nfa₁.size (most - r.lower)
      hexit.region hcopies.le_last hlast_lt hexit.le_last hexit.last_lt
      (Nat.ne_of_gt hcopies.region.entry_lt) hfits₂
      (by rwa [hexit₂, hold₂ last hcopies.last_lt])
    refine ⟨a₃, hfits₃.link _ _ ?_, ?_, ?_⟩
    · rwa [hagree₃ _ hexit.last_lt]
    · show a₃ nfa.size ≤ _
      rw [hagree₃ _ hexit.region.entry_lt, hold₂ _ hcopies.region.entry_lt, hagree _ hlt]
    · show rest ≤ a₃ nfa₁.size
      rw [hagree₃ _ hexit.last_lt, hexit₂]

/-- A repetition denotes as many words as its bounds allow. -/
theorem denotes_repeated (h : Denotes reads allowed builder l) (r : Repetition) :
    Denotes reads allowed (repeated r builder) (r.language l) := by
  by_cases honce : r.lower = 1 ∧ r.upper = some 1
  · rw [Repetition.language_of_bounds honce]
    unfold repeated
    rwa [if_pos honce]
  · exact ⟨framed_repeated r h.framed, fun nfa _ hw => repeated_complete h r honce nfa hw,
      repeated_fits h r honce⟩

end

end Building

/-! ## Expressions -/

namespace Expr

variable {α L σ : Type} {reads : L → σ → Prop} {allowed : L → Prop} {labels : α → List L}

open Building

mutual

/-- The builder of an expression denotes its language. -/
theorem denotes_builder (hlabels : ∀ t, ∀ l ∈ labels t, allowed l) : ∀ e : Expr α,
    Denotes reads allowed (builder labels e) (e.language fun t => labelLanguage reads (labels t))
  | .leaf m t => denotes_repeated (denotes_symbols (hlabels t)) m.repetition
  | .node m .choice parts => by
    rw [language, languageOfParts_choice]
    exact denotes_repeated (denotes_choice (denotes_partBuilders hlabels parts)) m.repetition
  | .node m .sequence parts => by
    rw [language, languageOfParts_sequence]
    exact denotes_repeated (denotes_sequence (denotes_partBuilders hlabels parts)) m.repetition

theorem denotes_partBuilders (hlabels : ∀ t, ∀ l ∈ labels t, allowed l) :
    ∀ parts : List (Expr α), DenotesAll reads allowed (partBuilders labels parts)
      (parts.map (language fun t => labelLanguage reads (labels t)))
  | [] => .nil
  | part :: rest => .cons (denotes_builder hlabels part) (denotes_partBuilders hlabels rest)

end

end Expr

end LexChart
