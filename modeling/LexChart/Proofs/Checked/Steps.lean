import LexChart.Proofs.Answers
set_option autoImplicit false

/-!
# Steps that may break off

A checked computation has a value unless one of its steps breaks off: `none` stands for an index
that is out of range, a number below zero, a state or a character that does not exist, a loop that
has not ended before its limit.

A list of steps has a value if every step has one, where a step may rely on what those before it
have kept.
-/

namespace LexChart.Checked

variable {α β γ : Type}

/-- Steps that all have a value have as many values. -/
theorem mapM_eq_some_filterMap {f : α → Option β} {xs : List α} (h : ∀ x ∈ xs, ∃ y, f x = some y) :
    xs.mapM f = some (xs.filterMap f) := by
  induction xs with
  | nil => rfl
  | cons x xs ih =>
    obtain ⟨⟨y, hy⟩, hxs⟩ := List.forall_mem_cons.1 h
    rw [List.mapM_cons, List.filterMap_cons, hy, ih hxs]
    rfl

theorem mapM_eq_some {f : α → Option β} {g : α → β} {xs : List α}
    (h : ∀ x ∈ xs, f x = some (g x)) : xs.mapM f = some (xs.map g) := by
  rw [mapM_eq_some_filterMap fun x hx => ⟨g x, h x hx⟩, List.filterMap_congr h]
  exact congrArg some (congrFun List.filterMap_eq_map' xs)

/-- A list of steps that may pick something has a value if every step has. -/
theorem filterMapM_eq_some {f : α → Option (Option γ)} {g : β → Option γ} {xs : List α}
    {ys : List β} (h : List.Forall₂ (fun x y => f x = some (g y)) xs ys) :
    xs.filterMapM f = some (ys.filterMap g) := by
  induction h with
  | nil => rfl
  | @cons x y xs ys hstep _ ih =>
    rw [List.filterMapM_cons, hstep, Option.bind_eq_bind, Option.bind_some, ih,
      List.filterMap_cons]
    cases g y <;> rfl

/-- A fold of steps that keep a property, under which they have values. -/
theorem foldlM_eq_some {f : β → α → Option β} {g : β → α → β} {keeps : β → Prop}
    (h : ∀ b a, keeps b → f b a = some (g b a) ∧ keeps (g b a)) (xs : List α) {b : β}
    (hb : keeps b) : xs.foldlM f b = some (xs.foldl g b) := by
  induction xs generalizing b with
  | nil => rfl
  | cons a xs ih =>
    obtain ⟨hstep, hkeeps⟩ := h b a hb
    rw [List.foldlM_cons, hstep, List.foldl_cons]
    exact ih hkeeps

theorem toOption_of_ok {x : Except Fault α} {a : α} (h : x = .ok a) : x.toOption = some a :=
  congrArg Except.toOption h

/-- Steps of the library that all answer have values. -/
theorem mapM_toOption {f : α → Except Fault β} {xs : List α} {ys : List β}
    (h : xs.mapM f = .ok ys) : xs.mapM (fun x => (f x).toOption) = some ys := by
  induction xs generalizing ys with
  | nil =>
    cases h
    rfl
  | cons x xs ih =>
    rw [List.mapM_cons] at h ⊢
    obtain ⟨y, hy, h⟩ := bind_eq_ok_iff.1 h
    obtain ⟨rest, hrest, h⟩ := bind_eq_ok_iff.1 h
    cases h
    rw [hy, ih hrest]
    rfl

/-- Steps that pick nothing can as well be taken. -/
theorem filterMapM_toOption {f : α → Except Fault (Option β)} {p : α → Bool} {xs : List α}
    {ys : List β} (hskip : ∀ x ∈ xs, p x = false → f x = .ok none)
    (h : (xs.filter p).filterMapM f = .ok ys) :
    xs.filterMapM (fun x => (f x).toOption) = some ys := by
  induction xs generalizing ys with
  | nil =>
    cases h
    rfl
  | cons x xs ih =>
    obtain ⟨hx, hxs⟩ := List.forall_mem_cons.1 hskip
    rw [List.filterMapM_cons]
    rw [List.filter_cons] at h
    split at h
    · rw [List.filterMapM_cons] at h
      obtain ⟨found, hfound, h⟩ := bind_eq_ok_iff.1 h
      refine Option.bind_eq_some_iff.2 ⟨found, toOption_of_ok hfound, ?_⟩
      cases found with
      | none => exact ih hxs h
      | some y =>
        obtain ⟨more, hmore, h⟩ := bind_eq_ok_iff.1 h
        cases h
        exact Option.bind_eq_some_iff.2 ⟨more, ih hxs hmore, rfl⟩
    · rename_i hp
      have hnone := hx (Bool.not_eq_true _ ▸ hp)
      exact Option.bind_eq_some_iff.2 ⟨none, toOption_of_ok hnone, ih hxs h⟩

end LexChart.Checked
