import LexChart.Automaton.Fragment
import LexChart.Proofs.Automaton.Closure
set_option autoImplicit false

/-!
# Fragments whose transitions leave states that exist

A checked builder adds a transition to a state only if there is one, and breaks off otherwise.  A
builder never adds a transition to a state that does not exist: it knows of its own states and of
the ends of fragments that it has built, and states are never taken away.  So both build the same.
-/

namespace LexChart.Checked

/-- Builders that may break off. -/
abbrev Building (L : Type) : Type → Type := StateT (Nfa L) Option

namespace Building

variable {L : Type}

/-- Adds a state. -/
def newState : Building L Nat := fun nfa => some (LexChart.Building.newState nfa)

/-- Adds a transition to a state that exists. -/
def connect (source : Nat) (t : Transition L) : Building L Unit := fun nfa =>
  (nfa.addTransition source t).toOption.map ((), ·)

/-- Adds a null transition. -/
def link (source target : Nat) : Building L Unit := connect source (.null target)

/-- `Building.connectAll`, checked. -/
def connectAll (source target : Nat) : List L → Building L Unit
  | [] => pure ()
  | label :: rest => do
    connect source (.symbol label target)
    connectAll source target rest

/-- `Building.symbols`, checked, of labels that may not exist. -/
def symbols (labels : Option (List L)) : Building L Fragment := do
  let entry ← newState
  let exit ← newState
  let labels ← StateT.lift labels
  connectAll entry exit labels
  pure ⟨entry, exit⟩

/-- `Building.branches`, checked. -/
def branches (entry exit : Nat) : List (Building L Fragment) → Building L Unit
  | [] => pure ()
  | builder :: rest => do
    let branch ← builder
    link entry branch.entry
    link branch.exit exit
    branches entry exit rest

/-- `Building.choice`, checked. -/
def choice (builders : List (Building L Fragment)) : Building L Fragment := do
  let entry ← newState
  let exit ← newState
  branches entry exit builders
  pure ⟨entry, exit⟩

/-- `Building.chain`, checked. -/
def chain (last : Nat) : List (Building L Fragment) → Building L Nat
  | [] => pure last
  | builder :: rest => do
    let item ← builder
    link last item.entry
    chain item.exit rest

/-- `Building.sequence`, checked. -/
def sequence (builders : List (Building L Fragment)) : Building L Fragment := do
  let entry ← newState
  let exit ← chain entry builders
  pure ⟨entry, exit⟩

/-- `Building.copies`, checked. -/
def copies (builder : Building L Fragment) (last : Nat) (copy : Option Fragment) :
    Nat → Building L (Nat × Option Fragment)
  | 0 => pure (last, copy)
  | count + 1 => do
    let next ← builder
    link last next.entry
    copies builder next.exit (some next) count

/-- `Building.optionalCopies`, checked. -/
def optionalCopies (builder : Building L Fragment) (last exit : Nat) : Nat → Building L Nat
  | 0 => pure last
  | count + 1 => do
    let next ← builder
    link last exit
    link last next.entry
    optionalCopies builder next.exit exit count

/-- `Building.loop`, checked. -/
def loop (builder : Building L Fragment) (entry : Nat) : Building L Fragment := do
  let copy ← builder
  let exit ← newState
  link entry copy.entry
  link entry exit
  link copy.exit exit
  link copy.exit copy.entry
  pure ⟨entry, exit⟩

/-- `Building.repeated`, checked. -/
def repeated (r : Repetition) (builder : Building L Fragment) : Building L Fragment :=
  if r.lower = 1 ∧ r.upper = some 1 then builder
  else do
    let entry ← newState
    let (last, copy) ← copies builder entry none r.lower
    match r.upper, copy with
    | none, none => loop builder entry
    | none, some copy =>
      link copy.exit copy.entry
      pure ⟨entry, last⟩
    | some most, _ =>
      let exit ← newState
      let last ← optionalCopies builder last exit (most - r.lower)
      link last exit
      pure ⟨entry, exit⟩

/-- `Building.joined`, checked. -/
def joined : Join → List (Building L Fragment) → Building L Fragment
  | .choice => choice
  | .sequence => sequence

end Building

section

variable {α L : Type}

mutual

/-- `Expr.builder`, checked, for labels that may not exist. -/
def builder (labels : α → Option (List L)) : Expr α → Building L Fragment
  | .leaf m t => Building.repeated m.repetition (Building.symbols (labels t))
  | .node m join parts =>
    Building.repeated m.repetition (Building.joined join (partBuilders labels parts))

/-- `Expr.partBuilders`, checked. -/
def partBuilders (labels : α → Option (List L)) : List (Expr α) → List (Building L Fragment)
  | [] => []
  | part :: rest => builder labels part :: partBuilders labels rest

end

/-- `Nfa.build`, checked. -/
def build (nfa : Nfa L) (labels : α → Option (List L)) (e : Expr α) :
    Option (Nfa L × Fragment) := do
  let (fragment, nfa) ← (builder labels e).run nfa
  some (nfa, fragment)

end

/-! ## Both build the same -/

/-- On every automaton of at least `size` states both builders do the same, take no state away, and
give a result that fits the automaton they leave. -/
def Mirrors {L α : Type} (size : Nat) (checked : Building L α) (builder : LexChart.Building L α)
    (fits : α → Nat → Prop) : Prop :=
  ∀ nfa : Nfa L, size ≤ nfa.size → checked nfa = some (builder nfa) ∧
    size ≤ (builder nfa).2.size ∧ fits (builder nfa).1 (builder nfa).2.size

/-- Both ends of a fragment are states. -/
def Inside (f : Fragment) (size : Nat) : Prop := f.entry < size ∧ f.exit < size

namespace Mirrors

variable {L α β : Type} {size : Nat}

theorem bind {checked : Building L α} {builder : LexChart.Building L α} {fits : α → Nat → Prop}
    {next : α → Building L β} {next' : α → LexChart.Building L β} {fits' : β → Nat → Prop}
    (h : Mirrors size checked builder fits)
    (hnext : ∀ a more, size ≤ more → fits a more → Mirrors more (next a) (next' a) fits') :
    Mirrors size (checked >>= next) (builder >>= next') fits' := by
  intro nfa hsize
  obtain ⟨hsame, hle, hfits⟩ := h nfa hsize
  obtain ⟨hsame', hle', hfits'⟩ := hnext _ _ hle hfits (builder nfa).2 (Nat.le_refl _)
  refine ⟨?_, Nat.le_trans hle hle', hfits'⟩
  show (checked nfa).bind (fun answer => next answer.1 answer.2) = _
  rw [hsame]
  exact hsame'

theorem answer {a : α} {fits : α → Nat → Prop} (h : ∀ more, size ≤ more → fits a more) :
    Mirrors (L := L) size (pure a) (pure a) fits :=
  fun _ hsize => ⟨rfl, hsize, h _ hsize⟩

theorem newState : Mirrors size (Building.newState (L := L)) LexChart.Building.newState
    fun id more => size ≤ id ∧ id < more := by
  intro nfa hsize
  have hadded : nfa.addState.1.size = nfa.size + 1 := Array.size_push ..
  refine ⟨rfl, ?_, hsize, ?_⟩
  · show size ≤ nfa.addState.1.size
    omega
  · show nfa.size < nfa.addState.1.size
    omega

theorem connect {source : Nat} (t : Transition L) (h : source < size) :
    Mirrors size (Building.connect source t) (LexChart.Building.connect source t)
      fun _ _ => True := by
  intro nfa hsize
  have hmodified : (nfa.modifyState source fun s => s.addTransition t).size = nfa.size :=
    Array.size_modify
  refine ⟨?_, ?_, trivial⟩
  · unfold Building.connect Nfa.addTransition
    rw [Nfa.changeState_of_lt (Nat.lt_of_lt_of_le h hsize)]
    rfl
  · show size ≤ Nfa.size (nfa.modifyState source _)
    omega

theorem link {source : Nat} (target : Nat) (h : source < size) :
    Mirrors size (Building.link (L := L) source target) (LexChart.Building.link source target)
      fun _ _ => True :=
  connect (.null target) h

/-! ### Terminals, choices and sequences -/

theorem connectAll {source : Nat} (target : Nat) (labels : List L) (h : source < size) :
    Mirrors size (Building.connectAll source target labels)
      (LexChart.Building.connectAll source target labels) fun _ _ => True := by
  induction labels generalizing size with
  | nil => exact answer fun _ _ => trivial
  | cons label rest ih => exact (connect _ h).bind fun _ _ hle _ => ih (Nat.lt_of_lt_of_le h hle)

theorem symbols (labels : List L) :
    Mirrors size (Building.symbols (some labels)) (LexChart.Building.symbols labels) Inside := by
  refine newState.bind fun entry size₁ hle₁ hentry => newState.bind fun exit size₂ hle₂ hexit => ?_
  have hall : Mirrors size₂ (Building.connectAll entry exit labels)
    (LexChart.Building.connectAll entry exit labels) fun _ _ => True := connectAll _ _ (by omega)
  exact hall.bind fun _ _ hle _ => answer fun _ hle' => ⟨by dsimp only; omega, by dsimp only; omega⟩

theorem branches {checked : List (Building L Fragment)}
    {builders : List (LexChart.Building L Fragment)}
    (h : List.Forall₂ (fun c b => ∀ size, Mirrors size c b Inside) checked builders)
    {entry exit : Nat} (hentry : entry < size) (hexit : exit < size) :
    Mirrors size (Building.branches entry exit checked)
      (LexChart.Building.branches entry exit builders) fun _ _ => True := by
  induction h generalizing size with
  | nil => exact answer fun _ _ => trivial
  | cons hbuilder _ ih =>
    refine (hbuilder size).bind fun branch size₁ hle₁ hbranch => ?_
    refine (link _ (by omega)).bind fun _ size₂ hle₂ _ => ?_
    refine (link _ (Nat.lt_of_lt_of_le hbranch.2 hle₂)).bind fun _ size₃ hle₃ _ => ?_
    exact ih (by omega) (by omega)

theorem choice {checked : List (Building L Fragment)}
    {builders : List (LexChart.Building L Fragment)}
    (h : List.Forall₂ (fun c b => ∀ size, Mirrors size c b Inside) checked builders) :
    Mirrors size (Building.choice checked) (LexChart.Building.choice builders) Inside := by
  refine newState.bind fun entry size₁ hle₁ hentry => newState.bind fun exit size₂ hle₂ hexit => ?_
  refine (branches h (by omega) (by omega)).bind fun _ size₃ hle₃ _ => ?_
  exact answer fun _ hle => ⟨by dsimp only; omega, by dsimp only; omega⟩

theorem chain {checked : List (Building L Fragment)}
    {builders : List (LexChart.Building L Fragment)}
    (h : List.Forall₂ (fun c b => ∀ size, Mirrors size c b Inside) checked builders)
    {last : Nat} (hlast : last < size) :
    Mirrors size (Building.chain last checked) (LexChart.Building.chain last builders)
      fun exit more => exit < more := by
  induction h generalizing size last with
  | nil => exact answer fun _ hle => Nat.lt_of_lt_of_le hlast hle
  | cons hbuilder _ ih =>
    refine (hbuilder size).bind fun item size₁ hle₁ hitem => ?_
    refine (link _ (by omega)).bind fun _ size₂ hle₂ _ => ?_
    exact ih (Nat.lt_of_lt_of_le hitem.2 hle₂)

theorem sequence {checked : List (Building L Fragment)}
    {builders : List (LexChart.Building L Fragment)}
    (h : List.Forall₂ (fun c b => ∀ size, Mirrors size c b Inside) checked builders) :
    Mirrors size (Building.sequence checked) (LexChart.Building.sequence builders) Inside := by
  refine newState.bind fun entry size₁ hle₁ hentry => ?_
  refine (chain h hentry.2).bind fun exit size₂ hle₂ hexit => ?_
  exact answer fun _ hle => ⟨by dsimp only; omega, by dsimp only; omega⟩

/-! ### Repetitions -/

section

variable {checked : Building L Fragment} {builder : LexChart.Building L Fragment}
  (h : ∀ size, Mirrors size checked builder Inside)

include h

theorem copies (copy : Option Fragment) (count : Nat) {last : Nat} (hlast : last < size)
    (hcopy : ∀ c, copy = some c → Inside c size) :
    Mirrors size (Building.copies checked last copy count)
      (LexChart.Building.copies builder last copy count)
      fun answer more => answer.1 < more ∧ ∀ c, answer.2 = some c → Inside c more := by
  induction count generalizing size last copy with
  | zero =>
    refine answer fun _ hle => ⟨Nat.lt_of_lt_of_le hlast hle, fun c hc => ?_⟩
    exact (hcopy c hc).imp (Nat.lt_of_lt_of_le · hle) (Nat.lt_of_lt_of_le · hle)
  | succ count ih =>
    refine (h size).bind fun next size₁ hle₁ hnext => ?_
    refine (link _ (by omega)).bind fun _ size₂ hle₂ _ => ?_
    refine ih (some next) (Nat.lt_of_lt_of_le hnext.2 hle₂) fun c hc => ?_
    obtain rfl := Option.some.inj hc
    exact hnext.imp (Nat.lt_of_lt_of_le · hle₂) (Nat.lt_of_lt_of_le · hle₂)

theorem optionalCopies (count : Nat) {last exit : Nat} (hlast : last < size) :
    Mirrors size (Building.optionalCopies checked last exit count)
      (LexChart.Building.optionalCopies builder last exit count) fun last more => last < more := by
  induction count generalizing size last with
  | zero => exact answer fun _ hle => Nat.lt_of_lt_of_le hlast hle
  | succ count ih =>
    refine (h size).bind fun next size₁ hle₁ hnext => ?_
    refine (link _ (by omega)).bind fun _ size₂ hle₂ _ => ?_
    refine (link _ (by omega)).bind fun _ size₃ hle₃ _ => ?_
    exact ih (by have := hnext.2; omega)

theorem loop {entry : Nat} (hentry : entry < size) :
    Mirrors size (Building.loop checked entry) (LexChart.Building.loop builder entry) Inside := by
  refine (h size).bind fun copy size₁ hle₁ hcopy => ?_
  have hexit := hcopy.2
  refine newState.bind fun exit size₂ hle₂ hnew => ?_
  refine (link _ (by omega)).bind fun _ size₃ hle₃ _ => ?_
  refine (link _ (by omega)).bind fun _ size₄ hle₄ _ => ?_
  refine (link _ (by omega)).bind fun _ size₅ hle₅ _ => ?_
  refine (link _ (by omega)).bind fun _ size₆ hle₆ _ => ?_
  exact answer fun _ hle => ⟨by dsimp only; omega, by dsimp only; omega⟩

theorem repeated (r : Repetition) :
    Mirrors size (Building.repeated r checked) (LexChart.Building.repeated r builder) Inside := by
  unfold Building.repeated LexChart.Building.repeated
  split
  · exact h size
  · refine newState.bind fun entry size₁ hle₁ hentry => ?_
    refine (copies h none r.lower hentry.2 fun _ hc => (nomatch hc)).bind
      fun (last, copy) size₂ hle₂ hcopies => ?_
    obtain ⟨hlast, hcopy⟩ := hcopies
    dsimp only at hlast hcopy ⊢
    cases r.upper with
    | none =>
      cases copy with
      | none => exact loop h (by omega)
      | some copy =>
        have hinside := hcopy copy rfl
        refine (link _ hinside.2).bind fun _ size₃ hle₃ _ => ?_
        exact answer fun _ hle => ⟨by dsimp only; omega, by dsimp only; omega⟩
    | some most =>
      refine newState.bind fun exit size₃ hle₃ hexit => ?_
      refine (optionalCopies h (most - r.lower) (by omega)).bind fun last size₄ hle₄ hlast => ?_
      refine (link _ hlast).bind fun _ size₅ hle₅ _ => ?_
      exact answer fun _ hle => ⟨by dsimp only; omega, by dsimp only; omega⟩

end

end Mirrors

section

variable {α L : Type} {checked : α → Option (List L)} {labels : α → List L}

mutual

/-- The checked builder of an expression builds what the builder of it does. -/
theorem mirrors_builder (h : ∀ t, checked t = some (labels t)) :
    ∀ (e : Expr α) (size : Nat), Mirrors size (builder checked e) (e.builder labels) Inside
  | .leaf m t, _ => .repeated (fun _ => by rw [h t]; exact .symbols (labels t)) m.repetition
  | .node m join parts, _ => by
    refine .repeated (fun _ => ?_) m.repetition
    cases join with
    | choice => exact .choice (mirrors_partBuilders h parts)
    | sequence => exact .sequence (mirrors_partBuilders h parts)

theorem mirrors_partBuilders (h : ∀ t, checked t = some (labels t)) :
    ∀ parts : List (Expr α), List.Forall₂ (fun c b => ∀ size, Mirrors size c b Inside)
      (partBuilders checked parts) (Expr.partBuilders labels parts)
  | [] => .nil
  | part :: rest => .cons (mirrors_builder h part) (mirrors_partBuilders h rest)

end

/-- What is built of an expression is the same, and its ends are states. -/
theorem build_eq (h : ∀ t, checked t = some (labels t)) (nfa : Nfa L) (e : Expr α) :
    build nfa checked e = some (nfa.build labels e) ∧
      nfa.size ≤ (nfa.build labels e).1.size ∧
      Inside (nfa.build labels e).2 (nfa.build labels e).1.size := by
  obtain ⟨hsame, hle, hinside⟩ := mirrors_builder h e nfa.size nfa (Nat.le_refl _)
  refine ⟨?_, hle, hinside⟩
  show (builder checked e nfa).bind (fun answer => some (answer.2, answer.1)) = _
  rw [hsame]
  rfl

end

end LexChart.Checked
