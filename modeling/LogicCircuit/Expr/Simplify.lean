import LogicCircuit.Expr.Parser

/-!
# Simplification

Removes double negations, repeated operands of AND and OR, and an XOR of equal operands. Operands
are simplified before the operator above them, so nothing is left to do afterwards.
-/

namespace LogicCircuit.Expr

/-- The negation of a simplified expression. -/
def negated : Expr → Expr
  | not e => e
  | e => not e

/-- An operator on two simplified operands. -/
def combined (op : BinaryOp) (a b : Expr) : Expr :=
  if a = b then
    match op with
    | .and | .or => a
    | .xor => const false
    | .nand | .nor => binary op a b
  else binary op a b

/-- The simplified expression. -/
def simplify : Expr → Expr
  | var name => var name
  | const on => const on
  | not e => e.simplify.negated
  | binary op a b => combined op a.simplify b.simplify

/-- The printed form of a text, simplified. -/
def simplifyText (s : String) : Except ParseError String := (parse s).map fun e => e.simplify.text

end LogicCircuit.Expr
