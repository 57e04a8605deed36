import LexChart.Fault
import Mathlib.Data.List.Forall2
import Mathlib.Data.List.Nodup
set_option autoImplicit false

/-!
# Answers that may be faults

A computation in steps answers if every step does, and a list of computations if all of them do.
Steps may keep a state, which stays as a step leaves it also where the step ends with a fault.
-/

namespace LexChart

variable {ε α β : Type}

/-- Two steps answer if the first does and the second does with its answer. -/
theorem bind_eq_ok_iff {step : Except ε α} {next : α → Except ε β} {b : β} :
    step >>= next = .ok b ↔ ∃ a, step = .ok a ∧ next a = .ok b := by
  cases step with
  | error fault =>
    constructor
    · intro h
      cases h
    · rintro ⟨a, h, _⟩
      cases h
  | ok a =>
    constructor
    · exact fun h => ⟨a, rfl, h⟩
    · rintro ⟨a', h, hnext⟩
      cases h
      exact hnext

theorem map_eq_ok_iff {step : Except ε α} {f : α → β} {b : β} :
    step.map f = .ok b ↔ ∃ a, step = .ok a ∧ f a = b := by
  cases step with
  | error fault => simp [Except.map]
  | ok a => simp [Except.map]

/-- The answers of a list of computations stand in the order of the computations. -/
theorem mapM_eq_ok_iff {f : α → Except ε β} {xs : List α} {ys : List β} :
    xs.mapM f = .ok ys ↔ List.Forall₂ (fun x y => f x = .ok y) xs ys := by
  induction xs generalizing ys with
  | nil =>
    rw [List.mapM_nil, List.forall₂_nil_left_iff]
    constructor
    · intro h
      cases h
      rfl
    · rintro rfl
      rfl
  | cons x xs ih =>
    rw [List.mapM_cons, bind_eq_ok_iff, List.forall₂_cons_left_iff]
    constructor
    · rintro ⟨y, hy, h⟩
      obtain ⟨rest, hrest, h⟩ := bind_eq_ok_iff.1 h
      cases h
      exact ⟨y, rest, hy, ih.1 hrest, rfl⟩
    · rintro ⟨y, rest, hy, hrest, rfl⟩
      exact ⟨y, hy, bind_eq_ok_iff.2 ⟨rest, ih.2 hrest, rfl⟩⟩

theorem exists_mapM_eq_ok {f : α → Except ε β} {xs : List α} (h : ∀ x ∈ xs, ∃ y, f x = .ok y) :
    ∃ ys, xs.mapM f = .ok ys := by
  induction xs with
  | nil => exact ⟨[], rfl⟩
  | cons x xs ih =>
    obtain ⟨hx, hxs⟩ := List.forall_mem_cons.1 h
    obtain ⟨y, hy⟩ := hx
    obtain ⟨ys, hys⟩ := ih hxs
    refine ⟨y :: ys, ?_⟩
    rw [List.mapM_cons, hy]
    show (xs.mapM f >>= fun rest => pure (y :: rest)) = _
    rw [hys]
    rfl

/-- The answers of computations on images are the images of their answers. -/
theorem mapM_map_eq {α' β' : Type} {step : α → Except ε β} {step' : α' → Except ε β'}
    {f : α → α'} {k : β → β'} {xs : List α} (h : ∀ x ∈ xs, step' (f x) = (step x).map k) :
    (xs.map f).mapM step' = (xs.mapM step).map (List.map k) := by
  induction xs with
  | nil => rfl
  | cons x xs ih =>
    obtain ⟨hx, hxs⟩ := List.forall_mem_cons.1 h
    rw [List.map_cons, List.mapM_cons, List.mapM_cons, hx, ih hxs]
    cases step x with
    | error fault => rfl
    | ok y => cases xs.mapM step <;> rfl

/-- A list of computations that may pick something answers with what they pick. -/
theorem exists_filterMapM_eq_ok {f : α → Except ε (Option β)} {xs : List α}
    (h : ∀ x ∈ xs, ∃ y, f x = .ok y) :
    ∃ ys, xs.filterMapM f = .ok ys ∧ ∀ y, y ∈ ys ↔ ∃ x ∈ xs, f x = .ok (some y) := by
  induction xs with
  | nil => exact ⟨[], rfl, by simp⟩
  | cons x xs ih =>
    obtain ⟨hx, hxs⟩ := List.forall_mem_cons.1 h
    obtain ⟨found, hfound⟩ := hx
    obtain ⟨ys, hys, hmem⟩ := ih hxs
    rw [List.filterMapM_cons, hfound]
    cases found with
    | none =>
      refine ⟨ys, hys, fun y => ?_⟩
      simp [hmem, hfound]
    | some b =>
      refine ⟨b :: ys, ?_, fun y => ?_⟩
      · show (xs.filterMapM f >>= fun ys => pure (b :: ys)) = _
        rw [hys]
        rfl
      · simp [hmem, hfound, eq_comm]

/-! ## Answers beside a state -/

/-- A step that answers hands its state on; behind one that fails, its state is the last one. -/
theorem run_run_bind {σ : Type} (step : ExceptT ε (StateM σ) α)
    (next : α → ExceptT ε (StateM σ) β) (s : σ) :
    (step >>= next).run.run s = match step.run.run s with
      | (.ok a, s') => (next a).run.run s'
      | (.error fault, s') => (.error fault, s') := by
  rw [ExceptT.run_bind, StateT.run_bind]
  generalize step.run.run s = answer
  obtain ⟨a | a, s'⟩ := answer <;> rfl

theorem run_run_bind_eq_ok_iff {σ : Type} {step : ExceptT ε (StateM σ) α}
    {next : α → ExceptT ε (StateM σ) β} {s s' : σ} {b : β} :
    (step >>= next).run.run s = (.ok b, s') ↔
      ∃ a s₁, step.run.run s = (.ok a, s₁) ∧ (next a).run.run s₁ = (.ok b, s') := by
  rw [run_run_bind]
  constructor
  · intro h
    split at h
    · rename_i a s₁ hfirst
      exact ⟨a, s₁, hfirst, h⟩
    · cases h
  · rintro ⟨a, s₁, hfirst, hrest⟩
    rw [hfirst]
    exact hrest

/-- What is made of an answer leaves the state alone. -/
theorem run_run_map {σ : Type} (f : α → β) (step : ExceptT ε (StateM σ) α) (s : σ) :
    (f <$> step).run.run s = ((step.run.run s).1.map f, (step.run.run s).2) := by
  rw [ExceptT.run_map, StateT.run_map]
  rfl

/-! ## Lookups -/

/-- What is found under a key stands in the list. -/
theorem mem_of_lookup_eq_some [BEq α] [LawfulBEq α] {xs : List (α × β)} {a : α} {b : β}
    (h : xs.lookup a = some b) : (a, b) ∈ xs := by
  obtain ⟨before, after, rfl, -⟩ := List.lookup_eq_some_iff.1 h
  exact List.mem_append_right before List.mem_cons_self

/-- In a list that has no key twice, all that it pairs with a key is found. -/
theorem lookup_eq_some_iff_mem [BEq α] [LawfulBEq α] {xs : List (α × β)}
    (hnodup : (xs.map Prod.fst).Nodup) {a : α} {b : β} : xs.lookup a = some b ↔ (a, b) ∈ xs := by
  refine ⟨mem_of_lookup_eq_some, fun h => ?_⟩
  cases hlookup : xs.lookup a with
  | none =>
    have hne := List.lookup_eq_none_iff.1 hlookup _ h
    simp at hne
  | some b' =>
    have heq := List.inj_on_of_nodup_map hnodup h (mem_of_lookup_eq_some hlookup) rfl
    rw [(Prod.mk.inj heq).2]

/-- A list whose keys are those of another one consists of the images of its elements if keys
determine images. -/
theorem eq_map_of_keys {γ : Type} {f : α → β} {key : α → γ} {key' : β → γ} {xs : List α}
    {ys : List β} (hkeys : ys.map key' = xs.map key)
    (h : ∀ x ∈ xs, ∀ y ∈ ys, key' y = key x → y = f x) : ys = xs.map f := by
  induction xs generalizing ys with
  | nil => exact List.map_eq_nil_iff.1 hkeys
  | cons x xs ih =>
    obtain ⟨y, ys, rfl, hkey, hrest⟩ := List.map_eq_cons_iff.1 hkeys
    rw [List.map_cons, ← h x List.mem_cons_self y List.mem_cons_self hkey,
      ih hrest fun x hx y hy => h x (List.mem_cons_of_mem _ hx) y (List.mem_cons_of_mem _ hy)]

/-- At a position of a list with one more element stands what stood there, or the element. -/
theorem getElem?_concat_eq_some_iff {xs : List α} {x y : α} {k : Nat} :
    (xs ++ [x])[k]? = some y ↔ xs[k]? = some y ∨ (k = xs.length ∧ x = y) := by
  rw [List.getElem?_append]
  split
  · rename_i hlt
    exact ⟨.inl, fun h => h.resolve_right fun h => Nat.ne_of_lt hlt h.1⟩
  · rename_i hge
    rw [List.getElem?_eq_none (Nat.not_lt.1 hge), List.getElem?_eq_some_iff]
    constructor
    · rintro ⟨hlt, heq⟩
      rw [List.length_singleton] at hlt
      rw [List.getElem_singleton] at heq
      exact .inr ⟨by omega, heq⟩
    · rintro (h | ⟨rfl, rfl⟩)
      · cases h
      · exact ⟨by simp, List.getElem_singleton _⟩

/-! ## Lists of the same length -/

section

variable {r : α → β → Prop} {xs : List α} {ys : List β}

theorem forall₂_getElem?_left (h : List.Forall₂ r xs ys) {k : Nat} {x : α} (hx : xs[k]? = some x) :
    ∃ y, ys[k]? = some y ∧ r x y := by
  induction h generalizing k with
  | nil => simp at hx
  | cons hxy _ ih =>
    cases k with
    | zero =>
      obtain rfl := Option.some.inj hx
      exact ⟨_, rfl, hxy⟩
    | succ k => exact ih hx

theorem forall₂_getElem?_right (h : List.Forall₂ r xs ys) {k : Nat} {y : β} (hy : ys[k]? = some y) :
    ∃ x, xs[k]? = some x ∧ r x y :=
  forall₂_getElem?_left h.flip hy

theorem forall₂_mem_left (h : List.Forall₂ r xs ys) {x : α} (hx : x ∈ xs) : ∃ y ∈ ys, r x y := by
  obtain ⟨k, hk⟩ := List.mem_iff_getElem?.1 hx
  obtain ⟨y, hy, hxy⟩ := forall₂_getElem?_left h hk
  exact ⟨y, List.mem_of_getElem? hy, hxy⟩

theorem forall₂_mem_right (h : List.Forall₂ r xs ys) {y : β} (hy : y ∈ ys) : ∃ x ∈ xs, r x y :=
  forall₂_mem_left h.flip hy

end

end LexChart
