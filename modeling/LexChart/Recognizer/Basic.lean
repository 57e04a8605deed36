import LexChart.Diagnostic
import LexChart.Recognizer.Chart
import LexChart.Recognizer.Machine
set_option autoImplicit false

/-!
# Recognizing a sequence of tokens

A recognizer grows a chart by one set for each token.  The next set begins with what the items of
the last one scan, and grows by two rules until nothing is new: an item brings along what its state
predicts; and where an item completes a rule that began in an earlier set, the items of that set
that wait for the rule resume.

A token that no item scans is rejected, and the chart stays as it is.
-/

namespace LexChart

/-- The items of a set that wait for some rule to be completed. -/
def Machine.waitingItems (m : Machine) (set : ChartSet) : Array ChartItem :=
  set.items.filter fun i => m.states[i.state]?.any fun s => !s.gotos.isEmpty

/-- A machine and the chart grown with it. -/
structure Recognizer where
  machine : Machine
  chart : Chart
  /-- The items of each set that wait for some rule.  Most items of a long chart wait for none. -/
  waiting : Array (Array ChartItem)
  waiting_eq : waiting = chart.sets.map machine.waitingItems

namespace Recognizer

/-- The recognizer with one more set behind its chart. -/
def push (r : Recognizer) (set : ChartSet) : Recognizer where
  machine := r.machine
  chart := r.chart.push set
  waiting := r.waiting.push (r.machine.waitingItems set)
  waiting_eq := by rw [r.waiting_eq]; exact Array.map_push.symm

/-- The recognizer without any set. -/
def blank (m : Machine) : Recognizer := ⟨m, .empty, #[], by simp [Chart.empty]⟩

/-- The items of the set at a location that wait for some rule. -/
def waitingAt (r : Recognizer) (location : Nat) : Except Fault (Array ChartItem) :=
  match r.waiting[location]? with
  | some waiting => .ok waiting
  | none => .error (.missingSet location)

/-! ## Growing a set -/

/-- Inserts the state predicted by a state, what that one predicts, and so on up to one that is
there already; at most `limit` of them. -/
def insertPredictions (m : Machine) : Nat → ChartSet → Nat → Except Fault ChartSet
  | 0, set, _ => .ok set
  | limit + 1, set, id => do
    let s ← m.state id
    match s.prediction with
    | none => pure set
    | some prediction =>
      match set.insert ⟨prediction, set.location⟩ with
      | (set, false) => pure set
      | (set, true) => insertPredictions m limit set prediction

/-- Inserts an item and what it predicts.  Predictions of one set have different states, so there
are no more of them than states. -/
def add (m : Machine) (set : ChartSet) (i : ChartItem) : Except Fault ChartSet :=
  match set.insert i with
  | (set, false) => .ok set
  | (set, true) => insertPredictions m (m.size + 1) set i.state

/-- Inserts several items. -/
def addAll (m : Machine) (set : ChartSet) (items : List ChartItem) : Except Fault ChartSet :=
  items.foldlM (add m) set

/-- The items that go on after a rule, out of those that may wait for it. -/
def resumeAfter (m : Machine) (waiting : Array ChartItem) (rule : Nat) :
    Except Fault (List ChartItem) :=
  waiting.toList.filterMapM fun i => do
    let s ← m.state i.state
    pure ((s.goto rule).map fun target => ChartItem.mk target i.origin)

/-- The items that go on after the rules that an item completes.  Rules that began in the set at
`location` itself derive nothing, and calls of them are stepped over. -/
def resumed (r : Recognizer) (location : Nat) (i : ChartItem) : Except Fault (List ChartItem) :=
  if location ≤ i.origin then .ok []
  else do
    let s ← r.machine.state i.state
    let resumed ← s.completions.mapM fun c => do
      let waiting ← r.waitingAt i.origin
      resumeAfter r.machine waiting c.rule
    pure resumed.flatten

/-- Completes the items of a set from `position` on, those inserted on the way included, at most
`limit` of them. -/
def completeFrom (r : Recognizer) : Nat → Nat → ChartSet → Except Fault ChartSet
  | 0, _, set => .ok set
  | limit + 1, position, set =>
    match set.get? position with
    | none => .ok set
    | some i => do
      let items ← r.resumed set.location i
      let set ← addAll r.machine set items
      completeFrom r limit (position + 1) set

/-- Completes all items of a set.  An item is one of the states and begins in one of the sets up to
its own, which bounds their number. -/
def complete (r : Recognizer) (set : ChartSet) : Except Fault ChartSet :=
  r.completeFrom (r.machine.size * (set.location + 1) + 1) 0 set

/-! ## Tokens -/

/-- The recognizer before the first token. -/
def ofMachine (m : Machine) : Except Fault Recognizer := do
  let set ← add m (.empty 0) ⟨Machine.start, 0⟩
  pure ((blank m).push set)

/-- The location of the last set, where the next token is read. -/
def location (r : Recognizer) : Nat := r.chart.size - 1

/-- The items behind a token, out of those before it. -/
def scanned (m : Machine) (set : ChartSet) (token : Nat) : Except Fault (List ChartItem) :=
  set.items.toList.filterMapM fun i => do
    let s ← m.state i.state
    pure ((s.scan token).map fun target => ChartItem.mk target i.origin)

/-- The lex rules whose tokens can come next. -/
def expected (r : Recognizer) : Except Fault (List Nat) := do
  let set ← r.chart.set r.location
  let scans ← set.items.toList.mapM fun i => (r.machine.state i.state).map MachineState.scans
  pure (ascending (scans.flatten.map Prod.fst))

/-- The names of the lex rules whose tokens can come next. -/
def expectedNames (r : Recognizer) : Except Fault Expected := do
  let expected ← r.expected
  pure ⟨expected.map r.machine.lexName⟩

/-- A token of the lex rule can come next. -/
def canAdvance (r : Recognizer) (token : Nat) : Except Fault Bool := do
  let set ← r.chart.set r.location
  let items ← scanned r.machine set token
  pure !items.isEmpty

/-- Reads a token of a lex rule at a location, which has to be the last one.  The answer is the
recognizer behind the token, or what is wrong with it. -/
def advance (r : Recognizer) (location token : Nat) :
    Except Fault (Except Diagnostic Recognizer) :=
  if location ≠ r.location then .error (.wrongLocation location r.location)
  else do
    let set ← r.chart.set location
    let items ← scanned r.machine set token
    if items.isEmpty then
      let expected ← r.expectedNames
      pure (.error ⟨.noViableContinuation location (r.machine.lexName token) expected, none⟩)
    else
      let next ← addAll r.machine (.empty (location + 1)) items
      let next ← r.complete next
      pure (.ok (r.push next))

/-- The start rule derives the tokens read before a location. -/
def completesStartAt (r : Recognizer) (location : Nat) : Except Fault Bool := do
  let set ← r.chart.set location
  let complete ← set.items.toList.mapM fun i =>
    if i.origin = 0 then (r.machine.state i.state).map fun s => s.completes r.machine.startRule
    else pure false
  pure (complete.any fun c => c)

/-- The start rule derives all tokens read so far. -/
def isAccepted (r : Recognizer) : Except Fault Bool := r.completesStartAt r.location

end Recognizer

end LexChart
