import LexChart.Proofs.Grammar.Resolve
set_option autoImplicit false

/-!
# Calls that declare a grammar

A grammar is declared by calls that change one record in place.  A call can be refused, and what it
did to the record before then stays done.  So that a refused call leaves no trace is a fact about
the order of its steps: names are looked up and patterns are read before anything is stored.

Calls come in any order and number.  `declaredBy` is what they leave, whatever they answered, and
`declared_iff` says that these are the declarations that come about step by step.  What is declared
can be told from the accepted calls alone, in their order, which is what `Records` says.
-/

namespace LexChart.Declarations

/-- A call that declares something. -/
inductive Call where
  | lexPattern (name pattern : String)
  | lexSpelling (name spelling : String)
  | lexChar (name : String) (c : Char)
  | rule (name : String) (body : RuleBody)
  | ignore (name : String)
  | setStart (name : String)

/-! ## Steps that change what is declared -/

/-- Steps on declarations that may be refused; what was declared before stays declared. -/
abbrev Declaring (α : Type) := ExceptT Diagnostic (StateM Declarations) α

namespace Declaring

variable {α β : Type}

/-- The answer, and what is declared then. -/
def runOn (x : Declaring α) (d : Declarations) : Except Diagnostic α × Declarations :=
  (x.run.run d).run

/-- Goes on with what is found, if it is not refused. -/
def demand (found : Declarations → Except Diagnostic α) : Declaring α := do
  let d ← get
  ExceptT.mk (pure (found d))

/-- One change of what is declared. -/
def change (step : Declarations → Declarations) : Declaring Unit := modify step

theorem runOn_bind (x : Declaring α) (next : α → Declaring β) (d : Declarations) :
    (x >>= next).runOn d = match x.runOn d with
      | (.error refusal, e) => (.error refusal, e)
      | (.ok a, e) => (next a).runOn e := by
  unfold runOn
  rw [ExceptT.run_bind, StateT.run_bind]
  show (match (x.run.run d : Except Diagnostic α × Declarations) with | (a, e) => _) = _
  rcases (x.run.run d : Except Diagnostic α × Declarations) with ⟨_ | a, e⟩ <;> rfl

@[simp] theorem runOn_demand (found : Declarations → Except Diagnostic α) (d : Declarations) :
    (demand found).runOn d = (found d, d) := rfl

/-- What is demanded before a step is all that it can be refused for. -/
theorem runOn_demand_bind (found : Declarations → Except Diagnostic α) (next : α → Declaring β)
    (d : Declarations) : (demand found >>= next).runOn d = match found d with
      | .error refusal => (.error refusal, d)
      | .ok a => (next a).runOn d := by
  rw [runOn_bind, runOn_demand]
  cases found d with
  | error refusal => rfl
  | ok a => rfl

end Declaring

/-! ## One call -/

namespace Call

open Declaring (demand change)

/-- Puts a lex rule behind those that there are. -/
def storeLexRule (name : String) (pattern : Pattern) (spelling : Option String) : Declaring Unit :=
  change fun d => { d with lexRules := appendLexRule d.lexRules name pattern spelling }

/-- Declares a lex rule by the only text that it matches, in place. -/
def performSpelling (name spelling : String) : Declaring Unit := do
  demand fun d => d.checkLexName name
  storeLexRule name (.ofSpelling spelling.toList) (some spelling)

/-- What a call does, in place. -/
def perform : Call → Declaring Unit
  | .lexPattern name pattern => do
    demand fun d => d.checkLexName name
    let pattern ← demand fun _ => Pattern.parse pattern
    storeLexRule name pattern none
  | .lexSpelling name spelling => performSpelling name spelling
  | .lexChar name c => performSpelling name (String.singleton c)
  | .rule name body => do
    demand fun d =>
      if d.hasLexRule name then .error ⟨.duplicatedRule name, none⟩ else .ok ()
    change fun d => { d with rules := appendBody name body d.rules }
  | .ignore name => change fun d => d.ignore name
  | .setStart name => change fun d => d.setStart name

/-- What is declared if a call is accepted. -/
def answer (d : Declarations) : Call → Except Diagnostic Declarations
  | .lexPattern name pattern => d.addLexPattern name pattern
  | .lexSpelling name spelling => d.addLexSpelling name spelling
  | .lexChar name c => d.addLexChar name c
  | .rule name body => d.addRule name body
  | .ignore name => .ok (d.ignore name)
  | .setStart name => .ok (d.setStart name)

/-- A call that was carried out, given what it declares or why it is refused. -/
def outcome (d : Declarations) : Except Diagnostic Declarations →
    Except Diagnostic Unit × Declarations
  | .error refusal => (.error refusal, d)
  | .ok e => (.ok (), e)

theorem runOn_performSpelling (d : Declarations) (name spelling : String) :
    (performSpelling name spelling).runOn d = outcome d (d.addLexSpelling name spelling) := by
  unfold performSpelling addLexSpelling
  rw [Declaring.runOn_demand_bind]
  cases d.checkLexName name with
  | error refusal => rfl
  | ok _ => rfl

/-- A call that is accepted declares what it should, and one that is refused declares nothing. -/
theorem runOn_perform (d : Declarations) (call : Call) :
    call.perform.runOn d = outcome d (call.answer d) := by
  cases call with
  | lexPattern name pattern =>
    show _ = outcome d (d.addLexPattern name pattern)
    unfold perform addLexPattern
    rw [Declaring.runOn_demand_bind]
    cases d.checkLexName name with
    | error refusal => rfl
    | ok _ =>
      dsimp only
      rw [Declaring.runOn_demand_bind]
      cases Pattern.parse pattern with
      | error refusal => rfl
      | ok pattern => rfl
  | lexSpelling name spelling => exact runOn_performSpelling d name spelling
  | lexChar name c => exact runOn_performSpelling d name (String.singleton c)
  | rule name body =>
    show _ = outcome d (d.addRule name body)
    unfold perform addRule
    rw [Declaring.runOn_demand_bind]
    cases d.hasLexRule name with
    | false => rfl
    | true => rfl
  | ignore name => rfl
  | setStart name => rfl

/-- A refused call leaves what was declared as it was. -/
theorem eq_of_refused {d e : Declarations} {call : Call} {refusal : Diagnostic}
    (h : call.perform.runOn d = (.error refusal, e)) : e = d := by
  rw [runOn_perform] at h
  cases hcall : call.answer d with
  | error refusal' =>
    rw [hcall] at h
    exact (Prod.mk.inj h).2.symm
  | ok e' =>
    rw [hcall] at h
    cases h

end Call

/-! ## Calls one after the other -/

/-- What some calls leave declared, whatever they answered. -/
def declaredBy (calls : List Call) : Declarations :=
  calls.foldl (fun d call => (call.perform.runOn d).2) empty

/-- The calls that are accepted, beginning with some declarations. -/
def acceptedFrom (d : Declarations) : List Call → List Call
  | [] => []
  | call :: rest =>
    match call.answer d with
    | .error _ => acceptedFrom d rest
    | .ok e => call :: acceptedFrom e rest

/-- The calls that are accepted. -/
def accepted (calls : List Call) : List Call := acceptedFrom empty calls

theorem declaredBy_concat (calls : List Call) (call : Call) :
    declaredBy (calls ++ [call]) = (call.perform.runOn (declaredBy calls)).2 :=
  List.foldl_concat _ empty call calls

theorem declaredBy_concat_of_answer {calls : List Call} {d : Declarations} (call : Call)
    (h : call.answer (declaredBy calls) = .ok d) : declaredBy (calls ++ [call]) = d := by
  rw [declaredBy_concat, Call.runOn_perform, h]
  rfl

theorem Declared.answer {d e : Declarations} (h : Declared d) {call : Call}
    (hcall : call.answer d = .ok e) : Declared e := by
  cases call with
  | lexPattern name pattern => exact h.lexPattern hcall
  | lexSpelling name spelling => exact h.lexSpelling hcall
  | lexChar name c => exact h.lexSpelling hcall
  | rule name body => exact h.rule hcall
  | ignore name =>
    cases hcall
    exact h.ignore name
  | setStart name =>
    cases hcall
    exact h.start name

/-- Calls declare step by step. -/
theorem declared_declaredBy (calls : List Call) : Declared (declaredBy calls) := by
  induction calls using List.reverseRecOn with
  | nil => exact .empty
  | append_singleton calls call ih =>
    rw [declaredBy_concat, Call.runOn_perform]
    cases hcall : call.answer (declaredBy calls) with
    | error refusal => exact ih
    | ok d => exact ih.answer hcall

/-- The declarations that come about step by step are those that calls leave. -/
theorem declared_iff {d : Declarations} : Declared d ↔ ∃ calls, declaredBy calls = d := by
  constructor
  · intro h
    induction h with
    | empty => exact ⟨[], rfl⟩
    | @lexPattern d e name pattern _ hadd ih =>
      obtain ⟨calls, rfl⟩ := ih
      exact ⟨_, declaredBy_concat_of_answer (.lexPattern name pattern) hadd⟩
    | @lexSpelling d e name spelling _ hadd ih =>
      obtain ⟨calls, rfl⟩ := ih
      exact ⟨_, declaredBy_concat_of_answer (.lexSpelling name spelling) hadd⟩
    | @rule d e name body _ hadd ih =>
      obtain ⟨calls, rfl⟩ := ih
      exact ⟨_, declaredBy_concat_of_answer (.rule name body) hadd⟩
    | ignore name _ ih =>
      obtain ⟨calls, rfl⟩ := ih
      exact ⟨_, declaredBy_concat_of_answer (.ignore name) rfl⟩
    | start name _ ih =>
      obtain ⟨calls, rfl⟩ := ih
      exact ⟨_, declaredBy_concat_of_answer (.setStart name) rfl⟩
  · rintro ⟨calls, rfl⟩
    exact declared_declaredBy calls

/-! ## What accepted calls declare -/

namespace Call

/-- The name and the text of the lex rule that a call declares. -/
def lexRule? : Call → Option (String × Option String)
  | .lexPattern name _ => some (name, none)
  | .lexSpelling name spelling => some (name, some spelling)
  | .lexChar name c => some (name, some (String.singleton c))
  | .rule _ _ => none
  | .ignore _ => none
  | .setStart _ => none

/-- The body that a call declares, with the name of its rule. -/
def body? : Call → Option (String × RuleBody)
  | .rule name body => some (name, body)
  | _ => none

/-- The name of a lex rule that a call has ignored. -/
def ignored? : Call → Option String
  | .ignore name => some name
  | _ => none

/-- The rule that a call has parses start from. -/
def start? : Call → Option String
  | .setStart name => some name
  | _ => none

end Call

/-- The bodies declared for the rules of a name. -/
def bodiesOf (name : String) (rules : List (String × List RuleBody)) : List RuleBody :=
  rules.flatMap fun rule => if rule.1 = name then rule.2 else []

/-- What is declared stands in the order of the calls: lex rules as they came, each rule where its
first body came and with its bodies as they came, and the last start rule. -/
structure Records (calls : List Call) (d : Declarations) : Prop where
  lexRules : d.lexRules.map (fun r => (r.name, r.spelling)) = calls.filterMap Call.lexRule?
  rules : d.rules.map Prod.fst = ((calls.filterMap Call.body?).map Prod.fst).eraseDups
  bodies : ∀ name, bodiesOf name d.rules =
    ((calls.filterMap Call.body?).filter fun body => body.1 = name).map Prod.snd
  ignored : d.ignored = calls.filterMap Call.ignored?
  start : d.start = (calls.filterMap Call.start?).getLast?

theorem eraseDups_concat (names : List String) (name : String) : (names ++ [name]).eraseDups =
    if name ∈ names.eraseDups then names.eraseDups else names.eraseDups ++ [name] := by
  rw [List.eraseDups_append]
  simp only [List.mem_eraseDups]
  by_cases hname : name ∈ names <;> simp [List.removeAll, hname, List.eraseDups_cons]

theorem bodiesOf_eq_nil {name : String} {rules : List (String × List RuleBody)}
    (h : name ∉ rules.map Prod.fst) : bodiesOf name rules = [] := by
  refine List.flatMap_eq_nil_iff.2 fun rule hrule => if_neg fun heq => h ?_
  exact heq ▸ List.mem_map_of_mem hrule

theorem bodiesOf_appendBody (name other : String) (body : RuleBody)
    (rules : List (String × List RuleBody)) (hnodup : (rules.map Prod.fst).Nodup) :
    bodiesOf other (appendBody name body rules) =
      bodiesOf other rules ++ if name = other then [body] else [] := by
  induction rules with
  | nil => simp [appendBody, bodiesOf]
  | cons rule rest ih =>
    obtain ⟨hfree, hnodup⟩ := List.nodup_cons.1 hnodup
    unfold appendBody
    split
    · rename_i hname
      by_cases hother : name = other
      · have hrest : bodiesOf other rest = [] := bodiesOf_eq_nil (hother ▸ hname ▸ hfree)
        unfold bodiesOf at hrest ⊢
        simp [hname, hother, hrest]
      · simp [bodiesOf, hname, hother]
    · unfold bodiesOf at ih ⊢
      rw [List.flatMap_cons, List.flatMap_cons, ih hnodup, List.append_assoc]

/-- What an accepted call adds to what is declared. -/
structure Adds (d : Declarations) (call : Call) (e : Declarations) : Prop where
  lexRules : e.lexRules.map (fun r => (r.name, r.spelling)) =
    d.lexRules.map (fun r => (r.name, r.spelling)) ++ call.lexRule?.toList
  rules : e.rules = call.body?.elim d.rules fun body => appendBody body.1 body.2 d.rules
  ignored : e.ignored = d.ignored ++ call.ignored?.toList
  start : e.start = call.start?.or d.start

theorem adds_of_answer {d e : Declarations} {call : Call} (h : call.answer d = .ok e) :
    Adds d call e := by
  have hnone : ∀ xs : List String, xs = xs ++ [] := fun xs => (List.append_nil xs).symm
  cases call with
  | lexPattern name pattern =>
    obtain ⟨_, -, h⟩ := bind_eq_ok_iff.1 h
    obtain ⟨pattern, -, h⟩ := bind_eq_ok_iff.1 h
    cases h
    exact ⟨List.map_append, rfl, hnone _, rfl⟩
  | lexSpelling name spelling =>
    obtain ⟨_, -, h⟩ := bind_eq_ok_iff.1 h
    cases h
    exact ⟨List.map_append, rfl, hnone _, rfl⟩
  | lexChar name c =>
    obtain ⟨_, -, h⟩ := bind_eq_ok_iff.1 h
    cases h
    exact ⟨List.map_append, rfl, hnone _, rfl⟩
  | rule name body =>
    replace h : d.addRule name body = .ok e := h
    unfold addRule at h
    split at h
    · cases h
    · cases h
      exact ⟨(List.append_nil _).symm, rfl, hnone _, rfl⟩
  | ignore name =>
    cases h
    exact ⟨(List.append_nil _).symm, rfl, rfl, rfl⟩
  | setStart name =>
    cases h
    exact ⟨(List.append_nil _).symm, rfl, hnone _, rfl⟩

/-- An accepted call is recorded behind those before it. -/
theorem Records.concat {calls : List Call} {d e : Declarations} (h : Records calls d)
    (hnodup : (d.rules.map Prod.fst).Nodup) {call : Call} (adds : Adds d call e) :
    Records (calls ++ [call]) e := by
  have hsingleton : ∀ {α : Type} (f : Call → Option α),
      (calls ++ [call]).filterMap f = calls.filterMap f ++ (f call).toList := by
    intro α f
    rw [List.filterMap_append]
    cases hf : f call <;> simp [hf]
  constructor
  case lexRules => rw [adds.lexRules, h.lexRules, hsingleton]
  case rules =>
    rw [adds.rules, hsingleton, List.map_append]
    cases call.body? with
    | none => simpa using h.rules
    | some body =>
      show (appendBody body.1 body.2 d.rules).map Prod.fst = _
      rw [map_fst_appendBody, h.rules]
      exact (eraseDups_concat _ body.1).symm
  case bodies =>
    intro name
    rw [adds.rules, hsingleton, List.filter_append, List.map_append, ← h.bodies name]
    cases call.body? with
    | none => simp
    | some body =>
      show bodiesOf name (appendBody body.1 body.2 d.rules) = _
      rw [bodiesOf_appendBody _ _ _ _ hnodup]
      by_cases hname : body.1 = name <;> simp [hname]
  case ignored => rw [adds.ignored, h.ignored, hsingleton]
  case start =>
    rw [adds.start, h.start, hsingleton, List.getLast?_append]
    cases call.start? <;> rfl

theorem acceptedFrom_concat (d : Declarations) (calls : List Call) (call : Call) :
    acceptedFrom d (calls ++ [call]) = acceptedFrom d calls ++
      match call.answer (calls.foldl (fun d call => (call.perform.runOn d).2) d) with
      | .error _ => []
      | .ok _ => [call] := by
  induction calls generalizing d with
  | nil => rfl
  | cons first rest ih =>
    rw [List.cons_append, acceptedFrom, acceptedFrom, List.foldl_cons, Call.runOn_perform]
    cases first.answer d with
    | error refusal => exact ih d
    | ok e => exact congrArg (first :: ·) (ih e)

/-- What is declared is what the accepted calls say, in their order. -/
theorem records_declaredBy (calls : List Call) : Records (accepted calls) (declaredBy calls) := by
  induction calls using List.reverseRecOn with
  | nil => constructor <;> simp [declaredBy, accepted, acceptedFrom, empty, bodiesOf]
  | append_singleton calls call ih =>
    have declared := declared_declaredBy calls
    rw [accepted, acceptedFrom_concat, declaredBy_concat, Call.runOn_perform]
    show Records (accepted calls ++ match call.answer (declaredBy calls) with
      | .error _ => []
      | .ok _ => [call]) _
    cases hcall : call.answer (declaredBy calls) with
    | error refusal =>
      rw [List.append_nil]
      exact ih
    | ok e => exact ih.concat declared.numbered_nodup.2 (adds_of_answer hcall)

end LexChart.Declarations
