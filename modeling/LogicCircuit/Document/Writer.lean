import LogicCircuit.Document.Basic
import LogicCircuit.Json.Basic

/-!
# Writing circuit documents

A document as JSON. Fields without a value are left out.
-/

namespace LogicCircuit

/-- A value as JSON. -/
def Value.toJson : Value → Json
  | .bit on => .bool on
  | .number n => .ofNat n

/-- The name of a direction. -/
def Direction.name : Direction → String
  | .input => "input"
  | .output => "output"

/-- A component as JSON. -/
def ComponentRecord.toJson (r : ComponentRecord) : Json :=
  .record
    [("id", some (.ofText r.id)), ("type", some (.ofText r.category)),
      ("subtype", some (.ofText r.subtype)), ("x", some (.ofFloat r.position.x)),
      ("y", some (.ofFloat r.position.y)), ("inputs", some (.ofNat r.arity)),
      ("output", r.output.map (·.toJson)), ("label", r.label.map .ofText),
      ("value", r.value.map (·.toJson)), ("frequency", r.frequency.map .ofFloat),
      ("enabled", r.enabled.map .bool)]

/-- A wire as JSON. -/
def WireRecord.toJson (r : WireRecord) : Json :=
  .record
    [("id", some (.ofText r.id)), ("fromComponentId", some (.ofText r.source)),
      ("fromPortType", some (.ofText r.sourcePort.direction.name)),
      ("fromPortIndex", some (.ofNat r.sourcePort.index)),
      ("toComponentId", some (.ofText r.target)),
      ("toPortType", some (.ofText r.targetPort.direction.name)),
      ("toPortIndex", some (.ofNat r.targetPort.index))]

/-- A document as JSON. -/
def Document.toJson (d : Document) : Json :=
  .record
    [("components", some (.array (d.components.map (·.toJson)))),
      ("connections", some (.array (d.wires.map (·.toJson))))]

/-- The text of the document of a circuit. -/
def Circuit.toDocumentText (c : Circuit) : String := (Document.ofCircuit c).toJson.pretty

end LogicCircuit
