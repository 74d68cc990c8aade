import LogicCircuit.Circuit.Interaction
import LogicCircuit.Simulation.Oscillation

/-!
# Simulation

A pass evaluates every component once, drivers before the components that they drive; where wires
form a loop, the component that closes it still shows the output of the pass before.
`Circuit.evaluationOrder` is the order and `Circuit.evaluateAll` the pass. A `Simulator` keeps the
order for as long as the revision of its circuit stays the same, and adds time: `tick` toggles the
clocks that are due, makes a pass and shows the new state to the oscillation guard.
-/

namespace LogicCircuit

namespace Circuit

/-- The order of evaluation: the components as a walk along the drivers closes them, from the
sinks and then from all components. The nodes that the walk returns to are where loops are cut. -/
def evaluationOrder (c : Circuit) : Traversal ComponentId :=
  Traversal.ofStarts c.driverGraph (c.sinks.map (·.id) ++ c.ids)

theorem id_evaluate (x : Component) (inputs : List Bool) : (x.evaluate inputs).id = x.id := by
  unfold Component.evaluate
  split <;> rfl

theorem id_reset (x : Component) (now : Float) : (x.reset now).id = x.id := by
  unfold Component.reset
  split <;> rfl

/-- Evaluates one component on the bits that are on its slots now. -/
def evaluateOne (c : Circuit) (id : ComponentId) : Circuit :=
  let inputs := c.inputValues id
  c.modify id (·.evaluate inputs) fun x => id_evaluate x inputs

/-- Evaluates components in turn, and gives those whose value changed. Names without a component
are passed over. -/
def evaluateAll : List ComponentId → Circuit → List ComponentId × Circuit
  | [], c => ([], c)
  | id :: ids, c =>
    let after := c.evaluateOne id
    let rest := evaluateAll ids after
    match after.component? id with
    | some x => if x.changed then (id :: rest.1, rest.2) else rest
    | none => rest

/-- A component after the clock that it may be toggled, if it is due at this time. -/
def toggleDue (now : Float) (x : Component) : Component :=
  { x with kind := x.kind.mapSource fun s => if s.isDue now then s.toggleAt now else s }

/-- The clocks that are due at a time, by name. -/
def dueClocks (c : Circuit) (now : Float) : List ComponentId :=
  (c.components.entries.filter fun x => x.kind.source?.any (·.isDue now)).map (·.id)

/-- Toggles the clocks that are due at a time. -/
def toggleClocks (c : Circuit) (now : Float) : Circuit :=
  { c with components := c.components.map (toggleDue now) fun _ => rfl }

/-- Brings every component to its initial state at a time. -/
def reset (c : Circuit) (now : Float) : Circuit :=
  { c with components := c.components.map (·.reset now) fun x => id_reset x now }

end Circuit

/-- The settings of a simulator. -/
structure Settings where
  /-- The number of states that the oscillation guard looks at. -/
  window : Nat
  /-- How often the guard has to see a state among them. -/
  threshold : Nat
  /-- Whether the guard is on. -/
  detect : Bool
  /-- The time of one step, in milliseconds. -/
  interval : Float
  deriving DecidableEq, Repr

/-- Ten states, five repetitions, steps of 50 ms. -/
def Settings.standard : Settings := ⟨10, 5, true, 50⟩

/-- What a tick did. -/
structure TickReport where
  /-- The components whose value changed, in the order of evaluation. -/
  changed : List ComponentId
  /-- The clocks that toggled, by name. -/
  clocks : List ComponentId
  /-- What the oscillation guard reported. -/
  oscillation : Option Oscillation
  deriving DecidableEq, Repr

/-- A simulator, which may be used on any circuit. -/
structure Simulator where
  /-- Its settings. -/
  settings : Settings
  /-- The order of the circuit that it last worked on. -/
  order : Traversal ComponentId
  /-- The revision of the circuit that the order belongs to. -/
  revision : Option Nat
  /-- The oscillation guard. -/
  guard : Guard
  /-- The time of the last tick, in milliseconds. -/
  lastTime : Float
  /-- How many components it has evaluated. -/
  evaluations : Nat
  deriving DecidableEq, Repr

namespace Simulator

/-- A new simulator. -/
def ofSettings (settings : Settings) : Simulator where
  settings := settings
  order := {}
  revision := none
  guard := .ofSize settings.window settings.threshold
  lastTime := 0
  evaluations := 0

/-- A new simulator with the standard settings. -/
def new : Simulator := ofSettings .standard

/-- The simulator with an order for this circuit: the one it has if the revisions agree, else a
new one, and then the guard forgets what it saw. -/
def refresh (s : Simulator) (c : Circuit) : Simulator :=
  if s.revision = some c.revision then s
  else { s with order := c.evaluationOrder, revision := some c.revision, guard := s.guard.clear }

/-- One pass over a circuit; gives the components whose value changed. -/
def evaluate (s : Simulator) (c : Circuit) : List ComponentId × Simulator × Circuit :=
  let s := s.refresh c
  let pass := c.evaluateAll s.order.closed
  let evaluated := s.order.closed.countP c.components.contains
  (pass.1, { s with evaluations := s.evaluations + evaluated }, pass.2)

/-- Goes on to a time in milliseconds: clocks first, then a pass, then the guard. -/
def tick (s : Simulator) (c : Circuit) (now : Float) : TickReport × Simulator × Circuit :=
  -- which clocks are due is decided before any of them toggles
  let clocks := c.dueClocks now
  let (changed, s, c) := { s with lastTime := now }.evaluate (c.toggleClocks now)
  if s.settings.detect then
    let (oscillation, guard) := s.guard.record c.snapshot
    (⟨changed, clocks, oscillation⟩, { s with guard }, c)
  else (⟨changed, clocks, none⟩, s, c)

/-- Goes on by the time of one step. -/
def step (s : Simulator) (c : Circuit) : TickReport × Simulator × Circuit :=
  s.tick c (s.lastTime + s.settings.interval)

/-- Goes on by some steps. -/
def steps : Nat → Simulator → Circuit → List TickReport × Simulator × Circuit
  | 0, s, c => ([], s, c)
  | n + 1, s, c =>
    let (report, s, c) := s.step c
    let (reports, s, c) := steps n s c
    (report :: reports, s, c)

/-- Goes on to each of some times. -/
def ticks : List Float → Simulator → Circuit → List TickReport × Simulator × Circuit
  | [], s, c => ([], s, c)
  | now :: times, s, c =>
    let (report, s, c) := s.tick c now
    let (reports, s, c) := ticks times s c
    (report :: reports, s, c)

/-- Brings the circuit to its initial state; the simulator keeps its time and forgets the rest. -/
def reset (s : Simulator) (c : Circuit) : Simulator × Circuit :=
  ({ s with guard := s.guard.clear, revision := none }, c.reset s.lastTime)

end Simulator

/-- The times of `n` ticks, an interval apart. -/
def tickTimes (n : Nat) (interval : Float) : List Float :=
  (List.range n).map fun i => Float.ofNat (i + 1) * interval

/-- What is on a slot of a component. -/
structure TracedInput where
  /-- The slot. -/
  slot : Nat
  /-- The component that drives it. -/
  source : Option ComponentId
  /-- The bit on it. -/
  value : Bool
  deriving DecidableEq, Repr

namespace Circuit

/-- Runs a circuit for some ticks with a new simulator. -/
def simulate (c : Circuit) (n : Nat) (interval : Float) : List TickReport × Circuit :=
  let (reports, _, c) := Simulator.new.ticks (tickTimes n interval) c
  (reports, c)

/-- Sets switches and makes one pass; gives what the sinks show, by name. -/
def simulateOnce (c : Circuit) (switches : List (ComponentId × Bool)) : List Value × Circuit :=
  let set := switches.foldl (fun c s => (c.setSwitch? s.1 s.2).getD c) c
  let (_, _, c) := Simulator.new.evaluate set
  (c.sinks.map (·.value), c)

/-- The output of a component and what is on its slots. -/
def trace? (c : Circuit) (id : ComponentId) : Option (Bool × List TracedInput) :=
  (c.component? id).map fun x =>
    (x.output, (c.driversOf id).zipIdx.map fun (source, slot) =>
      ⟨slot, source, c.outputOf source⟩)

end Circuit

end LogicCircuit
