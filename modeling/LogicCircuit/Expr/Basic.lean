import LogicCircuit.Gate
import LogicCircuit.Roster

/-!
# Boolean expressions

The syntax tree with its evaluator and its measures. `Expr.eval` is what every other module is
compared with: printing, simplification, packed tables and circuits all keep it.
-/

namespace LogicCircuit

/-- A binary operator. -/
inductive BinaryOp where
  | and
  | or
  | xor
  | nand
  | nor
  deriving DecidableEq, Repr

namespace BinaryOp

/-- Every binary operator, in the order of a random choice. -/
def all : List BinaryOp := [.and, .or, .xor, .nand, .nor]

/-- The gate that computes an operator. -/
def gate : BinaryOp → Gate
  | and => .and
  | or => .or
  | xor => .xor
  | nand => .nand
  | nor => .nor

/-- The keyword of an operator. -/
def name (op : BinaryOp) : String := op.gate.name

/-- The value of an operator. -/
def apply (op : BinaryOp) (a b : Bool) : Bool := op.gate.apply a b

end BinaryOp

/-- A boolean expression. -/
inductive Expr where
  | var (name : String)
  | const (on : Bool)
  | not (e : Expr)
  | binary (op : BinaryOp) (a b : Expr)
  deriving DecidableEq, Repr

namespace Expr

/-- The value of an expression for given values of the variables. -/
def eval (value : String → Bool) : Expr → Bool
  | var name => value name
  | const on => on
  | not e => !e.eval value
  | binary op a b => op.apply (a.eval value) (b.eval value)

/-- The variables in the order in which they are written, with repetitions. -/
def occurrences : Expr → List String
  | var name => [name]
  | const _ => []
  | not e => e.occurrences
  | binary _ a b => a.occurrences ++ b.occurrences

/-- The variables, each once, in increasing order. -/
def variableNames (e : Expr) : List String :=
  (Roster.ofList e.occurrences : Roster fun name : String => name).entries

theorem mem_variableNames_iff {e : Expr} {v : String} : v ∈ e.variableNames ↔ v ∈ e.occurrences :=
  Roster.mem_entries_ofList

theorem nodup_variableNames (e : Expr) : e.variableNames.Nodup :=
  (Roster.ofList e.occurrences : Roster fun name : String => name).increasing.imp String.ne_of_lt

/-- The number of operators. -/
def operators : Expr → Nat
  | var _ | const _ => 0
  | not e => 1 + e.operators
  | binary _ a b => 1 + a.operators + b.operators

/-- The number of operators on the longest branch. -/
def depth : Expr → Nat
  | var _ | const _ => 0
  | not e => 1 + e.depth
  | binary _ a b => 1 + max a.depth b.depth

/-- The printed form: every binary operation stands in parentheses, a negation in none. -/
def text : Expr → String
  | var name => name
  | const on => if on then "1" else "0"
  | not e => "NOT " ++ e.text
  | binary op a b => "(" ++ a.text ++ " " ++ op.name ++ " " ++ b.text ++ ")"

end Expr

end LogicCircuit
