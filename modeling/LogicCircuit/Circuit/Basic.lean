import LogicCircuit.Component.Basic
import LogicCircuit.Graph.Traversal
import LogicCircuit.Roster

/-!
# Circuits

A circuit is a roster of components and a roster of wires. A wire is written down twice: it names
the component and the slot that it ends on, and that slot names the wire. `Circuit.driversOf`
reads the slots, `Circuit.fanout` reads the wires, and `Circuit.Consistent` says that the two
agree.
-/

namespace LogicCircuit

/-- A directed wire from the output of a component to an input slot of another. -/
structure Wire where
  /-- Its name. -/
  id : WireId
  /-- The component whose output it carries. -/
  source : ComponentId
  /-- The component that it ends on. -/
  target : ComponentId
  /-- The slot that it ends on. -/
  slot : Nat
  deriving DecidableEq, Repr

/-- The text of a wire: where it comes from, where it goes. -/
def Wire.text (w : Wire) : String := s!"{w.source} -> {w.target}[{w.slot}]"

/-- A circuit. -/
structure Circuit where
  /-- The components, by name. -/
  components : Roster Component.id
  /-- The wires, by name. -/
  wires : Roster Wire.id
  /-- The number that the latest generated name ends with. -/
  lastNumber : Nat
  /-- Counts the changes of the topology. -/
  revision : Nat
  deriving DecidableEq

namespace Circuit

/-- The circuit without components. -/
def empty : Circuit := ⟨.empty, .empty, 0, 0⟩

/-- The component of a name. -/
def component? (c : Circuit) (id : ComponentId) : Option Component := c.components.get? id

/-- The wire of a name. -/
def wire? (c : Circuit) (id : WireId) : Option Wire := c.wires.get? id

/-- The names of the components, in increasing order. -/
def ids (c : Circuit) : List ComponentId := c.components.entries.map (·.id)

/-- The sources, by name. -/
def sources (c : Circuit) : List Component := c.components.entries.filter (·.kind.isSource)

/-- The gates, by name. -/
def gates (c : Circuit) : List Component := c.components.entries.filter (·.kind.isGate)

/-- The sinks, by name. -/
def sinks (c : Circuit) : List Component := c.components.entries.filter (·.kind.isSink)

theorem mem_sources_iff {c : Circuit} {x : Component} :
    x ∈ c.sources ↔ c.component? x.id = some x ∧ ∃ s, x.kind = .source s := by
  have hkind : x.kind.isSource ↔ ∃ s, x.kind = .source s := by
    cases x.kind <;> simp [Kind.isSource]
  rw [sources, List.mem_filter, hkind]
  exact and_congr_left fun _ => Roster.mem_entries_iff

theorem mem_gates_iff {c : Circuit} {x : Component} :
    x ∈ c.gates ↔ c.component? x.id = some x ∧ ∃ g, x.kind = .gate g := by
  have hkind : x.kind.isGate ↔ ∃ g, x.kind = .gate g := by cases x.kind <;> simp [Kind.isGate]
  rw [gates, List.mem_filter, hkind]
  exact and_congr_left fun _ => Roster.mem_entries_iff

theorem mem_sinks_iff {c : Circuit} {x : Component} :
    x ∈ c.sinks ↔ c.component? x.id = some x ∧ x.kind.isSink := by
  rw [sinks, List.mem_filter, Roster.mem_entries_iff, component?]

/-- The component that drives a slot through the wire on it. -/
def driver? (c : Circuit) (slot : Option WireId) : Option ComponentId :=
  (slot.bind c.wire?).map (·.source)

/-- The component that drives each slot of a component. -/
def driversOf (c : Circuit) (id : ComponentId) : List (Option ComponentId) :=
  match c.component? id with
  | none => []
  | some x => x.slots.map c.driver?

/-- The output of a component; without one it is false. -/
def outputOf (c : Circuit) (id : Option ComponentId) : Bool :=
  match id.bind c.component? with
  | none => false
  | some x => x.output

/-- The bit on each slot of a component; an empty slot reads as false. -/
def inputValues (c : Circuit) (id : ComponentId) : List Bool :=
  (c.driversOf id).map c.outputOf

/-- The wires that leave a component, by name. -/
def fanout (c : Circuit) (id : ComponentId) : List Wire :=
  c.wires.entries.filter (·.source == id)

/-- The graph whose edges lead from each component to those that drive it, by slot. -/
def driverGraph (c : Circuit) : Graph ComponentId :=
  ⟨c.ids, fun id => (c.driversOf id).filterMap fun d => d⟩

/-- The graph whose edges lead from each component to those that it drives, by wire. -/
def readerGraph (c : Circuit) : Graph ComponentId :=
  ⟨c.ids, fun id => (c.fanout id).map (·.target)⟩

/-- A component on a cycle of wires, if there is one: the first that a walk along the wires from
all components in turn meets again while it is open. -/
def findCycle? (c : Circuit) : Option ComponentId :=
  (Traversal.ofStarts c.readerGraph c.ids).returns.head?

/-- Whether wires form a cycle. -/
def hasCycle (c : Circuit) : Bool := c.findCycle?.isSome

/-- Whether a wire from `source` to `target` would close a cycle: whether the wires already lead
from `target` to `source`. -/
def wouldCreateCycle (c : Circuit) (source target : ComponentId) : Bool :=
  source ∈ (Traversal.ofStarts c.readerGraph [target]).closed

/-- Each wire has both of its ends, and the slot that it ends on names it; each wire that a slot
names exists and ends there. -/
def Consistent (c : Circuit) : Prop :=
  (∀ w ∈ c.wires.entries, (c.component? w.source).isSome ∧
    ∃ x ∈ c.component? w.target, x.slots[w.slot]? = some (some w.id)) ∧
  ∀ x ∈ c.components.entries, ∀ p ∈ x.slots.zipIdx, ∀ id ∈ p.1,
    ∃ w ∈ c.wire? id, w.target = x.id ∧ w.slot = p.2

instance (c : Circuit) : Decidable c.Consistent := by
  unfold Consistent; infer_instance

/-- The text of one component: its name and kind, the drivers of its slots and its label. -/
def componentText (c : Circuit) (x : Component) : String :=
  let inputs :=
    if x.slots.isEmpty then ""
    else "(" ++ ", ".intercalate ((c.driversOf x.id).map (·.getD "_")) ++ ")"
  let label := match x.label with
    | none => ""
    | some label => " \"" ++ label ++ "\""
  "\t" ++ x.id ++ " = " ++ x.kind.subtype ++ inputs ++ label ++ "\n"

/-- The text of a circuit: a line of totals, then a line for each component. -/
def text (c : Circuit) : String :=
  s!"Circuit with {c.components.size} components, {c.wires.size} connections:\n" ++
    String.join (c.components.entries.map c.componentText)

end Circuit

end LogicCircuit
