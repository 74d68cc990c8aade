import LogicCircuit.Expr.Columns
import LogicCircuit.Simulation.Simulator
import LogicCircuit.Text.Columns

/-!
# Truth tables

A table has named input and output columns and rows of bits. `TruthTable.ofExpr` tabulates an
expression; `Circuit.tabulate` runs a circuit through every setting of its switches and constants.
In both, row `r` shows the binary digits of `r`, the first column highest.
-/

namespace LogicCircuit

/-- A row of a truth table. -/
structure Row where
  /-- The input bits, by column. -/
  inputs : List Bool
  /-- The output bits, by column. -/
  outputs : List Bool
  deriving DecidableEq, Repr

/-- A truth table. -/
structure TruthTable where
  /-- The names of the input columns. -/
  inputs : List String
  /-- The names of the output columns. -/
  outputs : List String
  /-- The rows. -/
  rows : List Row
  deriving DecidableEq, Repr

namespace TruthTable

/-- The table with one more row, unless the row does not fit the columns. -/
def push? (t : TruthTable) (r : Row) : Option TruthTable :=
  if r.inputs.length = t.inputs.length ∧ r.outputs.length = t.outputs.length then
    some { t with rows := t.rows ++ [r] }
  else none

/-- The table of some rows, unless one of them does not fit the columns. -/
def ofRows? (inputs outputs : List String) (rows : List Row) : Option TruthTable :=
  rows.foldlM push? ⟨inputs, outputs, []⟩

/-- The table of an expression over some variables; its printed form names the output. -/
def ofExpr (e : Expr) (names : List String) : TruthTable where
  inputs := names
  outputs := [e.text]
  rows := (e.truthColumn names).zipIdx.map fun (on, row) =>
    ⟨assignment row names.length, [on]⟩

/-- The values of an output column. -/
def column (t : TruthTable) (output : Nat) : List Bool :=
  t.rows.map fun r => r.outputs[output]?.getD false

/-- The text of a row: each bit under the name of its column. -/
def rowText (t : TruthTable) (r : Row) : String :=
  let part (names : List String) (bits : List Bool) :=
    " ".intercalate (List.zipWith Text.bitUnder names bits)
  part t.inputs r.inputs ++ " | " ++ part t.outputs r.outputs ++ "\n"

/-- The text of a table: a line of names, then a line for each row. -/
def text (t : TruthTable) : String :=
  " ".intercalate t.inputs ++ " | " ++ " ".intercalate t.outputs ++ "\n" ++
    String.join (t.rows.map t.rowText)

end TruthTable

namespace Circuit

/-- Components with their display names, by display name and then by name. -/
def named (components : List Component) : List (ComponentId × String) :=
  (components.map fun x => (x.id, x.displayName)).mergeSort fun a b => a.2 ≤ b.2

/-- The sources that a table runs through: switches and constants. -/
def tableInputs (c : Circuit) : List (ComponentId × String) :=
  named (c.sources.filter fun x => x.kind.source?.any (·.kind.isTabulated))

/-- The sinks that a table shows. -/
def tableOutputs (c : Circuit) : List (ComponentId × String) := named c.sinks

/-- Sets sources to given levels. -/
def setLevels (c : Circuit) (levels : List (ComponentId × Bool)) : Circuit :=
  levels.foldl (fun c l => (c.setLevel? l.1 l.2).getD c) c

/-- Whether what a component shows is set. -/
def showsSet (c : Circuit) (id : ComponentId) : Bool := (c.component? id).any (·.value.isSet)

/-- The rows of a table from a list of row numbers, each with one pass of the simulator. -/
def tableRows (inputs outputs : List ComponentId) :
    List Nat → Simulator → Circuit → List Row × Circuit
  | [], _, c => ([], c)
  | row :: rows, s, c =>
    let bits := assignment row inputs.length
    let (_, s, c) := s.evaluate (c.setLevels (inputs.zip bits))
    let rest := tableRows inputs outputs rows s c
    (⟨bits, outputs.map c.showsSet⟩ :: rest.1, rest.2)

/-- The table of a circuit, and the circuit as the last row left it. There is no table without
inputs or without outputs. The program numbers the rows of fewer than 64 inputs. -/
def tabulate (c : Circuit) : Option TruthTable × Circuit :=
  let inputs := c.tableInputs
  let outputs := c.tableOutputs
  if inputs.isEmpty || outputs.isEmpty then (none, c)
  else
    let rows := List.range (1 <<< inputs.length)
    let (rows, c) := tableRows (inputs.map (·.1)) (outputs.map (·.1)) rows .new c
    (some ⟨inputs.map (·.2), outputs.map (·.2), rows⟩, c)

end Circuit

end LogicCircuit
