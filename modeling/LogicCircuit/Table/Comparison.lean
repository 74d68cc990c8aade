import LogicCircuit.Table.Basic

/-!
# Comparing tables

Two tables compared row by row, and a circuit graded against an expression.
-/

namespace LogicCircuit

namespace TruthTable

/-- Whether two tables have as many rows as each other and the same first output on each. -/
def sameFirstOutput (a b : TruthTable) : Bool :=
  a.rows.length == b.rows.length &&
    (List.zipWith (fun x y => x.outputs.head? == y.outputs.head?) a.rows b.rows).all id

/-- What tells two tables apart: nothing, the numbers of columns or rows (an empty pattern), or
the inputs of the first row with different outputs. -/
def difference? (a b : TruthTable) : Option (List Bool) :=
  if a.inputs.length != b.inputs.length || a.outputs.length != b.outputs.length ||
      a.rows.length != b.rows.length then some []
  else ((a.rows.zip b.rows).find? fun r => r.1.outputs != r.2.outputs).map (·.1.inputs)

end TruthTable

/-- A row on which a circuit differs from an expression. -/
structure Mismatch where
  /-- The number of the row. -/
  index : Nat
  /-- Its input bits. -/
  inputs : List Bool
  /-- The value of the expression. -/
  expected : Bool
  /-- The value of the circuit. -/
  actual : Bool
  deriving DecidableEq, Repr

/-- A circuit compared with an expression. -/
structure Comparison where
  /-- The numbers of the rows that agree. -/
  agreeing : List Nat
  /-- The rows that do not. -/
  mismatches : List Mismatch
  deriving DecidableEq, Repr

namespace Comparison

/-- Whether all rows agree. -/
def isEquivalent (r : Comparison) : Bool := r.mismatches.isEmpty

/-- The share of the rows that agree, in percent. -/
def accuracy (r : Comparison) : Float :=
  let total := r.agreeing.length + r.mismatches.length
  if total = 0 then 0 else 100 * Float.ofNat r.agreeing.length / Float.ofNat total

/-- The comparison of the rows of a table with the expected values of its first output. -/
def ofRows (rows : List (Row × Bool)) : Comparison :=
  let numbered := rows.zipIdx
  let actual (r : Row) := r.outputs.headD false
  ⟨(numbered.filter fun r => actual r.1.1 == r.1.2).map (·.2),
    (numbered.filter fun r => actual r.1.1 != r.1.2).map fun r =>
      ⟨r.2, r.1.1.inputs, r.1.2, actual r.1.1⟩⟩

end Comparison

namespace Circuit

/-- The first output of a circuit compared with an expression over its inputs; the circuit is left
as its table leaves it. There is no comparison without a table. -/
def compareWith (c : Circuit) (e : Expr) : Option Comparison × Circuit :=
  let (table, c) := c.tabulate
  (table.map fun t => .ofRows (t.rows.zip (e.truthColumn t.inputs)), c)

/-- Whether two circuits have tables and the tables agree; both are left as their tables leave
them. -/
def equivalentTo (a b : Circuit) : Bool × Circuit × Circuit :=
  let (s, a) := a.tabulate
  let (t, b) := b.tabulate
  let same := match s, t with
    | some s, some t => (s.difference? t).isNone
    | _, _ => false
  (same, a, b)

end Circuit

end LogicCircuit
