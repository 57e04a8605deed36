import LexChart.Proofs.Answers
import LexChart.Proofs.Expr.Terminals
set_option autoImplicit false

/-!
# Terminals converted before and after simplifying

`mapTerminals` runs an action on every terminal, from left to right.  What `simplify` does to a node
is decided by marks and by how parts are joined, and an action changes neither; nor does simplifying
leave out a terminal or change their order.  So it makes no difference whether an expression is
simplified before its terminals are converted or after, whatever effects the action has:
`mapTerminals_simplify` holds in every lawful monad.

For an action that may fail and keeps a state, `visit` says what there is to see of it when it is
called with one terminal after the other.  Both ways of converting an expression show just that.
-/

namespace LexChart.Expr

variable {α β : Type}

/-! ## Any effects -/

section

variable {m : Type → Type} [Monad m] [LawfulMonad m] (f : α → m β)

theorem mapTerminalsOfParts_eq_mapM (parts : List (Expr α)) :
    mapTerminalsOfParts f parts = parts.mapM (mapTerminals f) := by
  induction parts with
  | nil => rw [mapTerminalsOfParts, List.mapM_nil]
  | cons part rest ih => rw [mapTerminalsOfParts, ih, List.mapM_cons]

theorem mapTerminals_leaf (marks : Marks) (t : α) :
    mapTerminals f (.leaf marks t) = Expr.leaf marks <$> f t := by
  rw [mapTerminals, map_eq_pure_bind]

theorem mapTerminals_node (marks : Marks) (join : Join) (parts : List (Expr α)) :
    mapTerminals f (.node marks join parts) =
      Expr.node marks join <$> parts.mapM (mapTerminals f) := by
  rw [mapTerminals, mapTerminalsOfParts_eq_mapM, map_eq_pure_bind]

theorem mapM_singleton (part : Expr α) :
    [part].mapM (mapTerminals f) = (fun part' => [part']) <$> mapTerminals f part := by
  simp

/-- What is made of a converted expression may be decided by the root of the expression itself: its
marks, and how it joins its parts. -/
theorem map_mapTerminals_congr {γ : Type} {g h : Expr β → γ} {e : Expr α}
    (hroot : ∀ e' : Expr β, e'.marks = e.marks → e'.join? = e.join? → g e' = h e') :
    g <$> mapTerminals f e = h <$> mapTerminals f e := by
  cases e with
  | leaf marks t =>
    rw [mapTerminals_leaf, Functor.map_map, Functor.map_map]
    exact congrArg (· <$> f t) (funext fun _ => hroot _ rfl rfl)
  | node marks join parts =>
    rw [mapTerminals_node, Functor.map_map, Functor.map_map]
    exact congrArg (· <$> parts.mapM (mapTerminals f)) (funext fun _ => hroot _ rfl rfl)

theorem mapTerminals_withRepetition (e : Expr α) (r : Repetition) :
    mapTerminals f (e.withRepetition r) = (fun e' => e'.withRepetition r) <$> mapTerminals f e := by
  cases e with
  | leaf marks t =>
    rw [mapTerminals_leaf, Functor.map_map]
    exact mapTerminals_leaf ..
  | node marks join parts =>
    rw [mapTerminals_node, Functor.map_map]
    exact mapTerminals_node ..

/-- A converted part is replaced by its parts if the part itself is. -/
theorem mapM_spliceInto (join : Join) (part : Expr α) :
    (spliceInto join part).mapM (mapTerminals f) = spliceInto join <$> mapTerminals f part := by
  by_cases hspliced : part.isPlain = true ∧ part.join? = some join
  · have hparts : ∀ part' : Expr β, part'.marks = part.marks → part'.join? = part.join? →
        spliceInto join part' = part'.parts := by
      intro part' hmarks hjoin
      rw [spliceInto, isPlain, hmarks, hjoin]
      exact if_pos hspliced
    rw [map_mapTerminals_congr f hparts, spliceInto, if_pos hspliced]
    cases part with
    | leaf marks t => exact nomatch hspliced.2
    | node marks join' parts =>
      rw [mapTerminals_node, Functor.map_map]
      exact (id_map _).symm
  · have hstays : ∀ part' : Expr β, part'.marks = part.marks → part'.join? = part.join? →
        spliceInto join part' = [part'] := by
      intro part' hmarks hjoin
      rw [spliceInto, isPlain, hmarks, hjoin]
      exact if_neg hspliced
    rw [map_mapTerminals_congr f hstays, spliceInto, if_neg hspliced, mapM_singleton]

theorem mapM_flatMap_spliceInto (join : Join) (parts : List (Expr α)) :
    (parts.flatMap (spliceInto join)).mapM (mapTerminals f) =
      (fun parts' => parts'.flatMap (spliceInto join)) <$> parts.mapM (mapTerminals f) := by
  induction parts with
  | nil => simp
  | cons part rest ih =>
    rw [List.flatMap_cons, List.mapM_append, mapM_spliceInto, ih, List.mapM_cons]
    simp

/-- A node with one part that is converted gives way to that part if the node itself does. -/
theorem mapTerminals_rejoin_singleton (marks : Marks) (join : Join) (part : Expr α) :
    mapTerminals f (rejoin marks join [part]) =
      (fun part' => rejoin marks join [part']) <$> mapTerminals f part := by
  -- the part is plain before it is converted if and only if it is plain afterwards
  have hplain : ∀ part' : Expr β, part'.marks = part.marks → part'.isPlain = part.isPlain :=
    fun part' hmarks => congrArg (fun marks : Marks => decide (marks = {})) hmarks
  have hnode : mapTerminals f (.node marks join [part]) =
      (fun part' => Expr.node marks join [part']) <$> mapTerminals f part := by
    rw [mapTerminals_node, mapM_singleton, Functor.map_map]
  simp only [rejoin]
  split
  · exact hnode
  · split
    · exact (id_map _).symm
    · rw [map_mapTerminals_congr f fun part' hmarks _ => by rw [hplain part' hmarks]]
      split
      · exact mapTerminals_withRepetition f part marks.repetition
      · exact hnode

theorem mapTerminals_rejoin (marks : Marks) (join : Join) (parts : List (Expr α)) :
    mapTerminals f (rejoin marks join parts) =
      rejoin marks join <$> parts.mapM (mapTerminals f) := by
  match parts with
  | [] => simp [rejoin, mapTerminals_node]
  | [part] => rw [mapTerminals_rejoin_singleton, mapM_singleton, Functor.map_map]
  -- two parts or more are converted to as many, so the node stays
  | first :: second :: rest => simp [rejoin, mapTerminals_node]

mutual

/-- Converting the terminals of a simplified expression gives the converted expression simplified,
with the same effects in the same order. -/
theorem mapTerminals_simplify : ∀ e : Expr α,
    mapTerminals f (simplify e) = simplify <$> mapTerminals f e
  | .leaf marks t => by
    rw [simplify, mapTerminals_leaf, Functor.map_map]
    rfl
  | .node marks join parts => by
    rw [simplify, mapTerminals_rejoin, mapM_flatMap_spliceInto, mapM_simplifyParts parts,
      mapTerminals_node, Functor.map_map, Functor.map_map, Functor.map_map]
    rfl

theorem mapM_simplifyParts : ∀ parts : List (Expr α),
    (simplifyParts parts).mapM (mapTerminals f) = simplifyParts <$> parts.mapM (mapTerminals f)
  | [] => by simp [simplifyParts]
  | part :: rest => by
    rw [simplifyParts, List.mapM_cons, List.mapM_cons, mapTerminals_simplify part,
      mapM_simplifyParts rest]
    simp [simplifyParts]

end

mutual

/-- The action runs on the terminals in their order and on nothing else, and its answers are the
terminals of the converted expression. -/
theorem terminals_mapTerminals : ∀ e : Expr α,
    terminals <$> mapTerminals f e = (terminals e).mapM f
  | .leaf marks t => by
    rw [mapTerminals_leaf, Functor.map_map, terminals]
    simp [terminals]
  | .node marks join parts => by
    rw [mapTerminals, terminals, ← terminalsOfParts_mapTerminalsOfParts parts]
    simp [terminals]

theorem terminalsOfParts_mapTerminalsOfParts : ∀ parts : List (Expr α),
    terminalsOfParts <$> mapTerminalsOfParts f parts = (terminalsOfParts parts).mapM f
  | [] => by simp [mapTerminalsOfParts, terminalsOfParts]
  | part :: rest => by
    rw [mapTerminalsOfParts, terminalsOfParts, List.mapM_append, ← terminals_mapTerminals part,
      ← terminalsOfParts_mapTerminalsOfParts rest]
    simp [terminalsOfParts]

end

end

/-! ## Failures and a state -/

/-- Actions that may fail, and that keep a state also where they fail. -/
abbrev Converting (σ ε : Type) : Type → Type := ExceptT ε (StateM σ)

/-- What there is to see of an action that is called with terminals from left to right: the
terminals that it is called with, the state that it leaves, and its answers or the failure. -/
structure Visit (σ ε α β : Type) where
  calls : List α
  state : σ
  outcome : Except ε (List β)

variable {σ ε : Type}

/-- An action is called with one terminal after the other, up to the first one that it fails on. -/
def visit (f : α → Converting σ ε β) : List α → σ → Visit σ ε α β
  | [], s => ⟨[], s, .ok []⟩
  | t :: rest, s =>
    match (f t).run.run s with
    | (.error failure, s') => ⟨[t], s', .error failure⟩
    | (.ok b, s') =>
      let later := visit f rest s'
      ⟨t :: later.calls, later.state, later.outcome.map (b :: ·)⟩

/-- The same action, with the terminals that it is called with on record. -/
def recorded (f : α → Converting σ ε β) (t : α) : Converting (List α × σ) ε β :=
  ExceptT.mk fun (calls, s) =>
    match (f t).run.run s with
    | (answer, s') => (answer, calls ++ [t], s')

/-- An action that keeps a record beside its state does what the plain one does. -/
def Mirrors {γ : Type} (recording : Converting (List α × σ) ε γ) (plain : Converting σ ε γ) :
    Prop :=
  ∀ calls s, ∃ calls',
    recording.run.run (calls, s) = ((plain.run.run s).1, calls', (plain.run.run s).2)

theorem mirrors_pure {γ : Type} (a : γ) :
    Mirrors (pure a : Converting (List α × σ) ε γ) (pure a) :=
  fun calls _ => ⟨calls, rfl⟩

theorem Mirrors.bind {γ δ : Type} {recording : Converting (List α × σ) ε γ}
    {plain : Converting σ ε γ} (h : Mirrors recording plain)
    {recording' : γ → Converting (List α × σ) ε δ} {plain' : γ → Converting σ ε δ}
    (hnext : ∀ a, Mirrors (recording' a) (plain' a)) :
    Mirrors (recording >>= recording') (plain >>= plain') := by
  intro calls s
  obtain ⟨calls', hrun⟩ := h calls s
  rw [run_run_bind, run_run_bind, hrun]
  rcases plain.run.run s with ⟨failure | a, s'⟩
  · exact ⟨calls', rfl⟩
  · exact hnext a calls' s'

section

variable (f : α → Converting σ ε β)

/-! ### Calls in their order -/

theorem run_mapM (ts : List α) (s : σ) :
    (ts.mapM f).run.run s = ((visit f ts s).outcome, (visit f ts s).state) := by
  induction ts generalizing s with
  | nil => rfl
  | cons t rest ih =>
    rw [List.mapM_cons, run_run_bind, visit]
    rcases (f t).run.run s with ⟨failure | b, s'⟩
    · rfl
    · dsimp only
      rw [run_run_bind, ih]
      cases (visit f rest s').outcome <;> rfl

/-- The answers that a conversion gets, or its failure, and the state that it leaves are those of a
visit to the terminals. -/
theorem run_mapTerminals (e : Expr α) (s : σ) :
    ((mapTerminals f e).run.run s).1.map terminals = (visit f (terminals e) s).outcome ∧
      ((mapTerminals f e).run.run s).2 = (visit f (terminals e) s).state := by
  have hrun := run_mapM f (terminals e) s
  rw [← terminals_mapTerminals, run_run_map] at hrun
  exact Prod.mk.inj hrun

theorem visit_recorded (ts calls : List α) (s : σ) :
    visit (recorded f) ts (calls, s) =
      ⟨(visit f ts s).calls, (calls ++ (visit f ts s).calls, (visit f ts s).state),
        (visit f ts s).outcome⟩ := by
  induction ts generalizing calls s with
  | nil => simp [visit]
  | cons t rest ih =>
    have hcall : (recorded f t).run.run (calls, s) =
        (((f t).run.run s).1, calls ++ [t], ((f t).run.run s).2) := rfl
    rw [visit, visit, hcall]
    rcases (f t).run.run s with ⟨failure | b, s'⟩
    · rfl
    · dsimp only
      rw [ih]
      simp

theorem mirrors_recorded (t : α) : Mirrors (recorded f t) (f t) :=
  fun calls _ => ⟨calls ++ [t], rfl⟩

mutual

theorem mirrors_mapTerminals : ∀ e : Expr α,
    Mirrors (mapTerminals (recorded f) e) (mapTerminals f e)
  | .leaf marks t => (mirrors_recorded f t).bind fun b => mirrors_pure (Expr.leaf marks b)
  | .node marks join parts =>
    (mirrors_mapTerminalsOfParts parts).bind fun parts' => mirrors_pure (Expr.node marks join parts')

theorem mirrors_mapTerminalsOfParts : ∀ parts : List (Expr α),
    Mirrors (mapTerminalsOfParts (recorded f) parts) (mapTerminalsOfParts f parts)
  | [] => mirrors_pure []
  | part :: rest => (mirrors_mapTerminals part).bind fun part' =>
    (mirrors_mapTerminalsOfParts rest).bind fun rest' => mirrors_pure (part' :: rest')

end

/-- A conversion calls its action as a visit to the terminals does. -/
theorem run_mapTerminals_recorded (e : Expr α) (s : σ) :
    (mapTerminals (recorded f) e).run.run ([], s) =
      (((mapTerminals f e).run.run s).1, (visit f (terminals e) s).calls,
        ((mapTerminals f e).run.run s).2) := by
  obtain ⟨calls, hrun⟩ := mirrors_mapTerminals f e [] s
  have hstate := (run_mapTerminals (recorded f) e ([], s)).2
  rw [visit_recorded, hrun] at hstate
  obtain ⟨rfl, -⟩ := Prod.mk.inj hstate
  exact hrun

/-! ### What stays as it is -/

/-- An answer that the action gives for a terminal. -/
def Answers (t : α) (b : β) : Prop := ∃ s s', (f t).run.run s = (.ok b, s')

mutual

/-- A converted expression has the nodes and the marks of the expression, and an answer in the place
of every terminal. -/
theorem related_of_run : ∀ (e : Expr α) (s s' : σ) (e' : Expr β),
    (mapTerminals f e).run.run s = (.ok e', s') → Related (Answers f) e e'
  | .leaf marks t => by
    intro s s' e' hrun
    obtain ⟨b, s₁, hanswer, hrun⟩ := run_run_bind_eq_ok_iff.1 hrun
    cases hrun
    exact .leaf marks ⟨s, s', hanswer⟩
  | .node marks join parts => by
    intro s s' e' hrun
    obtain ⟨parts', s₁, hparts, hrun⟩ := run_run_bind_eq_ok_iff.1 hrun
    cases hrun
    exact .node marks join (forall₂_related_of_run parts s s' parts' hparts)

theorem forall₂_related_of_run : ∀ (parts : List (Expr α)) (s s' : σ) (parts' : List (Expr β)),
    (mapTerminalsOfParts f parts).run.run s = (.ok parts', s') →
      List.Forall₂ (Related (Answers f)) parts parts'
  | [] => by
    intro s s' parts' hrun
    cases hrun
    exact .nil
  | part :: rest => by
    intro s s' parts' hrun
    obtain ⟨part', s₁, hpart, hrun⟩ := run_run_bind_eq_ok_iff.1 hrun
    obtain ⟨rest', s₂, hrest, hrun⟩ := run_run_bind_eq_ok_iff.1 hrun
    cases hrun
    exact .cons (related_of_run part s s₁ part' hpart)
      (forall₂_related_of_run rest s₁ s' rest' hrest)

end

/-- It makes no difference to an action that may fail and keeps a state whether an expression is
simplified before its terminals are converted or after.  Either way it is called with the terminals
from left to right, up to the first one that it fails on, leaves the same state, and fails in the
same way; where it does not fail, the expression that was simplified first is converted to what the
other one is simplified to.  Converting leaves all nodes and marks as they are, and simplifying
leaves out no marks but those that say nothing. -/
theorem conversion_exact (e : Expr α) (s : σ) :
    (mapTerminals f (simplify e)).run.run s =
      (((mapTerminals f e).run.run s).1.map simplify, ((mapTerminals f e).run.run s).2) ∧
    (mapTerminals (recorded f) (simplify e)).run.run ([], s) =
      (((mapTerminals f e).run.run s).1.map simplify, (visit f (terminals e) s).calls,
        ((mapTerminals f e).run.run s).2) ∧
    (mapTerminals (recorded f) e).run.run ([], s) =
      (((mapTerminals f e).run.run s).1, (visit f (terminals e) s).calls,
        ((mapTerminals f e).run.run s).2) ∧
    ((mapTerminals f e).run.run s).1.map terminals = (visit f (terminals e) s).outcome ∧
    ((mapTerminals f e).run.run s).2 = (visit f (terminals e) s).state ∧
    ∀ e' s', (mapTerminals f e).run.run s = (.ok e', s') →
      Related (Answers f) e e' ∧ Related (Answers f) (simplify e) (simplify e') ∧
        marked (simplify e') = marked e := by
  have hsimplify : (mapTerminals f (simplify e)).run.run s =
      (((mapTerminals f e).run.run s).1.map simplify, ((mapTerminals f e).run.run s).2) := by
    rw [mapTerminals_simplify, run_run_map]
  obtain ⟨hanswers, hstate⟩ := run_mapTerminals f e s
  refine ⟨hsimplify, ?_, run_mapTerminals_recorded f e s, hanswers, hstate, fun e' s' hrun => ?_⟩
  · rw [run_mapTerminals_recorded, hsimplify, terminals_simplify]
  · have hrelated := related_of_run f e s s' e' hrun
    have hrun' : (mapTerminals f (simplify e)).run.run s = (.ok (simplify e'), s') := by
      rw [hsimplify, hrun]
      rfl
    refine ⟨hrelated, related_of_run f _ s s' _ hrun', ?_⟩
    rw [marked_simplify, marked, marked, Related.markings_eq e e' hrelated]

end

/-- Characters are numbered in the order in which they are met first; a digit is refused. -/
def numbered (c : Char) : Converting (List Char) Char Nat :=
  ExceptT.mk fun met =>
    if c.isDigit then (.error c, met)
    else match met.idxOf? c with
      | some k => (.ok k, met)
      | none => (.ok met.length, met ++ [c])

/-- A repetition that moves, parts that are spliced in, and a named group that stays. -/
def layered {α : Type} (a b c : α) : Expr α :=
  sequence [terminal b, .node { repetition := .many } .choice [sequence [terminal a]],
    sequence [terminal b, .node { name := some "rest", grouped := true } .sequence [terminal c]]]

/-- Numbers are given in the order of the terminals, also where a digit ends the conversion. -/
theorem conversion_exact_numbered :
    (mapTerminals numbered (layered 'a' 'b' 'c')).run.run [] =
      (.ok (layered 1 0 2), ['b', 'a', 'c']) ∧
    (mapTerminals (recorded numbered) (simplify (layered 'a' 'b' 'c'))).run.run ([], []) =
      (.ok (simplify (layered 1 0 2)), ['b', 'a', 'b', 'c'], ['b', 'a', 'c']) ∧
    marked (simplify (layered 1 0 2)) = marked (layered 'a' 'b' 'c') ∧
    (mapTerminals (recorded numbered) (simplify (layered 'a' 'b' '7'))).run.run ([], []) =
      (.error '7', ['b', 'a', 'b', '7'], ['b', 'a']) := by
  have hrun : (mapTerminals numbered (layered 'a' 'b' 'c')).run.run [] =
      (.ok (layered 1 0 2), ['b', 'a', 'c']) := rfl
  have hfails : (mapTerminals numbered (layered 'a' 'b' '7')).run.run [] =
      (.error '7', ['b', 'a']) := rfl
  obtain ⟨-, hcalls, -, -, -, hmarks⟩ := conversion_exact numbered (layered 'a' 'b' 'c') []
  obtain ⟨-, hcalls', -⟩ := conversion_exact numbered (layered 'a' 'b' '7') []
  rw [hrun] at hcalls
  rw [hfails] at hcalls'
  exact ⟨hrun, hcalls, (hmarks _ _ hrun).2.2, hcalls'⟩

end LexChart.Expr
