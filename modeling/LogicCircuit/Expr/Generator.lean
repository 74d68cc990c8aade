import LogicCircuit.Expr.Basic

/-!
# Expressions from random choices

A random expression is put together from choices of three kinds: whether something comes to pass
that is to happen once in so many times, a bit, and a number below a bound. Where the choices come
from is left open. A `Generator` may answer them in any way at all, so what holds of an expression
that it gives holds for every stream of random values.
-/

namespace LogicCircuit

/-- The name of a variable: a letter for the first 26, then X with the number. -/
def variableName (i : Nat) : String :=
  if i < 26 then String.singleton (Char.ofNat ('A'.toNat + i)) else s!"X{i}"

/-- What answers random choices: each draw gives a result and the state that it leaves behind. The
search for a number may find none. -/
structure Generator (σ : Type) where
  /-- A draw that is to be true once in so many times. -/
  chance (times : Nat) : σ → Bool × σ
  /-- A draw of a bit. -/
  bit : σ → Bool × σ
  /-- A draw of a number below a bound. -/
  below (n : Nat) : σ → Option (Fin n × σ)

namespace Generator

variable {σ : Type} (g : Generator σ)

/-- A draw of a variable or, more rarely, of a constant. -/
def leaf (breadth : Nat) (s : σ) : Option (Expr × σ) :=
  let (isConstant, s) := g.chance 16 s
  if isConstant then
    let (on, s) := g.bit s
    some (.const on, s)
  else do
    let (i, s) ← g.below breadth s
    return (.var (variableName i), s)

/-- A draw of a binary operator. -/
def operator (s : σ) : Option (BinaryOp × σ) := do
  let (i, s) ← g.below BinaryOp.all.length s
  return (BinaryOp.all[i], s)

/-- A draw of an expression of at most some depth. -/
def node (breadth : Nat) : (depth : Nat) → σ → Option (Expr × σ)
  | 0, s => g.leaf breadth s
  | depth + 1, s =>
    let (isLeaf, s) := g.chance 4 s
    if isLeaf then g.leaf breadth s
    else
      let (isNot, s) := g.chance 5 s
      if isNot then do
        let (a, s) ← node breadth depth s
        return (.not a, s)
      else do
        let (op, s) ← g.operator s
        let (a, s) ← node breadth depth s
        let (b, s) ← node breadth depth s
        return (.binary op a b, s)

/-- The expression that the choices give, over at most so many variables and of at most some
depth. There is none without variables. -/
def expr? (breadth depth : Nat) (s : σ) : Option Expr :=
  if breadth = 0 then none else (g.node breadth depth s).map (·.1)

end Generator

end LogicCircuit
