import LogicCircuit.Circuit.Edit

/-!
# Pointing at a circuit

What lies at a point of the drawing plane: the first component whose box holds it, the first wire
that passes near it, the first port near it.
-/

namespace LogicCircuit.Circuit

/-- How near to a wire a point selects it, unless the caller says otherwise. -/
def wireReach : Float := 5

/-- How near to a port a point selects it. -/
def portReach : Float := 10

/-- The first component whose box holds a point. -/
def componentAt? (c : Circuit) (p : Point) : Option Component :=
  c.components.entries.find? (·.bounds.contains p)

/-- The first wire that passes within `reach` of a point. -/
def wireAt? (c : Circuit) (p : Point) (reach : Float) : Option Wire :=
  c.wires.entries.find? fun w =>
    match c.component? w.source, c.component? w.target with
    | some s, some t => p.distanceToSegment s.outputPosition (t.inputPosition w.slot) ≤ reach
    | _, _ => false

/-- The ports of a component with their places: the inputs by slot, then the output. -/
def ports (x : Component) : List (Port × Point) :=
  ((List.range x.arity).map fun slot => (⟨.input, slot⟩, x.inputPosition slot)) ++
    if x.kind.isSink then [] else [(⟨.output, 0⟩, x.outputPosition)]

/-- The first port near a point. -/
def portAt? (c : Circuit) (p : Point) : Option (ComponentId × Port) :=
  c.components.entries.findSome? fun x =>
    ((ports x).find? fun q => q.2.distance p ≤ portReach).map fun q => (x.id, q.1)

end LogicCircuit.Circuit
