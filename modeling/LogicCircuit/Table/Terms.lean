import LogicCircuit.Table.Basic

/-!
# Canonical terms

A minterm is the product of literals that is true on one row only, a maxterm the sum that is false
on one row only. Joined over the rows where an output is true, or false, they spell the output.
-/

namespace LogicCircuit

/-- The term of a row. -/
structure Term where
  /-- The number of the row. -/
  index : Nat
  /-- The literals, joined. -/
  text : String
  deriving DecidableEq, Repr

/-- The terms of an output. -/
structure Terms where
  /-- The name of the output. -/
  output : String
  /-- The terms, by row. -/
  terms : List Term
  deriving DecidableEq, Repr

/-- The terms in parentheses, joined by the keyword of an operator. -/
def Terms.joined (t : Terms) (op : BinaryOp) : String :=
  (" " ++ op.name ++ " ").intercalate (t.terms.map fun x => "(" ++ x.text ++ ")")

namespace TruthTable

/-- A variable, negated unless it is plain. -/
def literal (name : String) (plain : Bool) : String := if plain then name else "NOT " ++ name

/-- The terms of each output from the rows where it has the value `on`. The literals are joined by
`op`; a variable is plain where its bit equals `on`. -/
def terms (t : TruthTable) (on : Bool) (op : BinaryOp) : List Terms :=
  t.outputs.zipIdx.map fun (output, o) =>
    ⟨output, (t.rows.zipIdx.filter fun r => r.1.outputs[o]? == some on).map fun (r, index) =>
      ⟨index, (" " ++ op.name ++ " ").intercalate
        (List.zipWith (fun name b => literal name (b == on)) t.inputs r.inputs)⟩⟩

/-- The minterms of each output. -/
def minterms (t : TruthTable) : List Terms := t.terms true .and

/-- The maxterms of each output. -/
def maxterms (t : TruthTable) : List Terms := t.terms false .or

end TruthTable

end LogicCircuit
