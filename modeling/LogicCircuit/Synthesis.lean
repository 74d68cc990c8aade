import LogicCircuit.Circuit.Edit
import LogicCircuit.Expr.Parser

/-!
# From expressions to circuits

Each variable becomes a switch that bears its name, each operator a gate, and the result drives a
bulb. Variables and constants are shared, operators are not. `Circuit.ofExpr` connects like any
other caller, so its type allows for a refusal; the circuits that it builds never give a reason
for one.
-/

namespace LogicCircuit

namespace Synthesis

/-- The name of the switch of a variable. -/
def inputName (variableName : String) : ComponentId := "input-" ++ variableName

/-- The name of the source of a constant. -/
def constantName (on : Bool) : ComponentId := if on then "const-1" else "const-0"

/-- The name of the bulb that shows the result. -/
def outputName : ComponentId := "output-main"

/-- The row of the last gate. -/
def rootRow : Float := 200

/-- How far the operands of a gate are above and below it. -/
def rowSpacing : Float := 40

/-- How far one level of gates is from the next. -/
def columnSpacing : Float := 150

/-- The column of a level of gates; the operators next to the sources have level 1. -/
def column (level : Nat) : Float := 200 + columnSpacing * Float.ofNat (level - 1)

/-- Where a component stands. -/
def positionOf (c : Circuit) (id : ComponentId) : Point :=
  ((c.component? id).map (·.position)).getD .origin

/-- Connects operands to the slots of a gate, from some slot on. -/
def connectAll (target : ComponentId) :
    List ComponentId → Nat → Circuit → Except WiringError Circuit
  | [], _, c => .ok c
  | a :: operands, slot, c =>
    match c.connect a target slot with
    | .error e => .error e
    | .ok (_, c) => connectAll target operands (slot + 1) c

/-- Adds a gate and connects its operands; gives its name. -/
def addGate (g : Gate) (position : Point) (operands : List ComponentId) (c : Circuit) :
    Except WiringError (ComponentId × Circuit) :=
  let id := s!"gate-{c.components.size}"
  let (_, c) := c.add ((Component.gate g position).withId id)
  (connectAll id operands 0 c).map (id, ·)

/-- Adds the source of a constant unless there is one. -/
def addConstant (on : Bool) (row : Float) (c : Circuit) : Circuit :=
  if c.components.contains (constantName on) then c
  else
    let kind : SourceKind := if on then .high else .low
    (c.add ((Component.source kind ⟨50, row⟩).withId (constantName on))).2

/-- Adds what computes an expression; gives the name of its last component and its level. -/
def build : Expr → (row : Float) → Circuit → Except WiringError (ComponentId × Nat × Circuit)
  | .var name, _, c => .ok (inputName name, 0, c)
  | .const on, row, c => .ok (constantName on, 0, addConstant on row c)
  | .not a, row, c => do
    let (a, level, c) ← build a row c
    let (id, c) ← addGate .not ⟨column (level + 1), (positionOf c a).y⟩ [a] c
    return (id, level + 1, c)
  | .binary op a b, row, c => do
    let (a, levelA, c) ← build a (row - rowSpacing) c
    let (b, levelB, c) ← build b (row + rowSpacing) c
    let level := max levelA levelB + 1
    let y := ((positionOf c a).y + (positionOf c b).y) / 2
    let (id, c) ← addGate op.gate ⟨column level, y⟩ [a, b] c
    return (id, level, c)

/-- The switch of a variable, given its place among the variables. -/
def inputSwitch (name : String) (place : Nat) : Component :=
  ((Component.source .switch ⟨50 + 100 * Float.ofNat place, 100⟩).withId
    (inputName name)).withLabel name

/-- The circuit with a switch for each variable and nothing else. -/
def switches (names : List String) : Circuit :=
  names.zipIdx.foldl (fun c v => (c.add (inputSwitch v.1 v.2)).2) .empty

end Synthesis

/-- The circuit that computes an expression. -/
def Circuit.ofExpr (e : Expr) : Except WiringError Circuit := do
  let (root, _, c) ← Synthesis.build e Synthesis.rootRow (Synthesis.switches e.variableNames)
  let position := (Synthesis.positionOf c root).shifted Synthesis.columnSpacing 0
  let bulb := ((Component.sink .bulb position).withId Synthesis.outputName).withLabel "Output"
  let (id, c) := c.add bulb
  let (_, c) ← c.connect root id 0
  return c

end LogicCircuit
