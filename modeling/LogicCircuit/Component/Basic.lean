import LogicCircuit.Component.Kind
import LogicCircuit.Plane

/-!
# Components

A component is a node of a circuit: a kind, a place on the drawing plane, one slot for each input
and the output of its last evaluation. `Component.evaluate` is the whole semantics of a single
node: a gate takes its function of the inputs, a source its level, and a sink what it shows.
-/

namespace LogicCircuit

/-- The name of a component within its circuit; the empty name stands for none. -/
abbrev ComponentId := String

/-- The name of a wire within its circuit. -/
abbrev WireId := String

/-- A node of a circuit. -/
structure Component where
  /-- Its name. -/
  id : ComponentId
  /-- What it is, with its state. -/
  kind : Kind
  /-- Its top left corner. -/
  position : Point
  /-- The name that people gave it. -/
  label : Option String
  /-- The wire on each input slot. -/
  slots : List (Option WireId)
  /-- The bit that its wires carry. -/
  output : Bool
  /-- Whether the last evaluation changed its value. -/
  changed : Bool
  deriving DecidableEq, Repr

namespace Component

/-- A new component that has no name yet and nothing on its slots. -/
def ofKind (kind : Kind) (position : Point) : Component where
  id := ""
  kind := kind
  position := position
  label := none
  slots := List.replicate kind.arity none
  output := match kind with
    | .source s => s.level
    | _ => false
  changed := false

/-- A new gate. -/
def gate (g : Gate) (position : Point) : Component := ofKind (.gate g) position

/-- A new source. -/
def source (k : SourceKind) (position : Point) : Component :=
  ofKind (.source (.ofKind k)) position

/-- A new sink. -/
def sink (k : SinkKind) (position : Point) : Component := ofKind (.sink (.ofKind k)) position

/-- The component under another name. -/
def withId (c : Component) (id : ComponentId) : Component := { c with id }

/-- The component with a label. -/
def withLabel (c : Component) (label : String) : Component := { c with label := some label }

/-- The name to show: the label if there is one. -/
def displayName (c : Component) : String := c.label.getD c.id

/-- The number of input slots. -/
def arity (c : Component) : Nat := c.slots.length

/-- The component with nothing on its slots. -/
def unplugged (c : Component) : Component := { c with slots := c.slots.map fun _ => none }

/-- The component with a slot set. -/
def plug (c : Component) (slot : Nat) (wire : Option WireId) : Component :=
  { c with slots := c.slots.set slot wire }

/-- What the component shows. -/
def value (c : Component) : Value :=
  match c.kind with
  | .sink s => s.value
  | _ => .bit c.output

/-- The box that the component covers. -/
def bounds (c : Component) : Box := ⟨c.position, c.kind.size.1, c.kind.size.2⟩

/-- The place of an input port on the left edge. The ports divide the edge evenly; a display
counts as having four ports. -/
def inputPosition (c : Component) (slot : Nat) : Point :=
  let parts : Float :=
    match c.kind with
    | .sink ⟨.display, _⟩ => 5
    | _ => Float.ofNat (max c.arity 1) + 1
  ⟨c.position.x, c.position.y + c.kind.size.2 / parts * Float.ofNat (slot + 1)⟩

/-- The place of the output port, in the middle of the right edge. -/
def outputPosition (c : Component) : Point := c.position.shifted c.kind.size.1 (c.kind.size.2 / 2)

/-- The component after one evaluation on the bits of its slots. -/
def evaluate (c : Component) (inputs : List Bool) : Component :=
  match c.kind with
  | .gate g =>
    let output := g.eval inputs
    { c with output, changed := output != c.output }
  | .source s => { c with output := s.level, changed := s.level != c.output }
  | .sink s =>
    let after := s.receive inputs
    let output := after.value.isSet
    { c with
      kind := .sink after
      output
      changed := s.value != after.value || output != c.output }

/-- The component in its initial state at this time; its wires stay. -/
def reset (c : Component) (now : Float) : Component :=
  match c.kind with
  | .gate _ => { c with output := false, changed := false }
  | .source s =>
    let s := s.reset now
    { c with kind := .source s, output := s.level, changed := false }
  | .sink s => { c with kind := .sink s.reset, output := false, changed := false }

end Component

end LogicCircuit
