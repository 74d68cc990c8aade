import LogicCircuit.Analysis
import LogicCircuit.Json.Basic

/-!
# Reports

An analysis as text for people and as JSON.
-/

namespace LogicCircuit

/-- A heading with an indented line for each remark; nothing without remarks. -/
def remarks (heading : String) (lines : List String) : String :=
  if lines.isEmpty then ""
  else heading ++ "\n" ++ String.join (lines.map fun l => "  " ++ l ++ "\n")

/-- The text of an analysis. -/
def Analysis.text (a : Analysis) : String :=
  "Stats:\n" ++
    s!"  Inputs: {a.inputs}\n" ++
    s!"  Outputs: {a.outputs}\n" ++
    s!"  Gates: {a.gates}\n" ++
    String.join (a.usage.map fun (g, n) => s!"      {g.name}: {n}\n") ++
    s!"  Connections: {a.wires}\n" ++
    s!"  Depth: {a.depth}\n" ++
    "  Complexity: " ++ Decimal.plainText a.complexity ++ "\n" ++
    ((a.expression.map fun e => s!"  Expression: {e}\n").getD "") ++
    remarks "Warnings:" (a.warnings.map (·.message)) ++
    remarks "Suggestions:" (a.suggestions.map (·.message))

/-- A warning as JSON. -/
def Warning.toJson : Warning → Json
  | .unconnectedInput id =>
    .record [("type", some (.ofText "unconnected_input")), ("component", some (.ofText id))]
  | .floatingOutput id =>
    .record [("type", some (.ofText "floating_output")), ("component", some (.ofText id))]
  | .feedbackLoop => .record [("type", some (.ofText "feedback_loop"))]

/-- A suggestion as JSON. -/
def Suggestion.toJson : Suggestion → Json
  | .doubleNegation outer inner =>
    .record
      [("type", some (.ofText "double_negation")), ("outer", some (.ofText outer)),
        ("inner", some (.ofText inner))]
  | .redundantGate id gate =>
    .record
      [("type", some (.ofText "redundant_gate")), ("gate", some (.ofText id)),
        ("kind", some (.ofText gate.name))]

/-- An analysis as JSON. -/
def Analysis.toJson (a : Analysis) : Json :=
  .record
    [("nb_inputs", some (.ofNat a.inputs)), ("nb_outputs", some (.ofNat a.outputs)),
      ("nb_gates", some (.ofNat a.gates)), ("nb_connections", some (.ofNat a.wires)),
      ("gate_usage", some (.record (a.usage.map fun (g, n) => (g.name, some (.ofNat n))))),
      ("depth", some (.ofNat a.depth)), ("complexity", some (.ofFloat a.complexity)),
      ("warnings", some (.array (a.warnings.map (·.toJson)))),
      ("expression", some ((a.expression.map .ofText).getD .null)),
      ("suggestions", some (.array (a.suggestions.map (·.toJson))))]

end LogicCircuit
