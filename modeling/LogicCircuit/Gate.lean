import LogicCircuit.Text.Letters

/-!
# Gates

The six gate functions, with their names, their number of inputs and their cost. `Gate.eval` reads
the first two of a list of bits and takes a missing one as false, so a gate has a value whatever
is wired to it.
-/

namespace LogicCircuit

/-- The function of a gate. -/
inductive Gate where
  | and
  | or
  | not
  | xor
  | nand
  | nor
  deriving DecidableEq, Repr

namespace Gate

/-- Every gate, in the order of listings. -/
def all : List Gate := [.and, .or, .not, .xor, .nand, .nor]

/-- The number of inputs. -/
def arity : Gate → Nat
  | .not => 1
  | _ => 2

/-- The value of a gate on two bits; an inverter looks at the first alone. -/
def apply : Gate → Bool → Bool → Bool
  | .and, a, b => a && b
  | .or, a, b => a || b
  | .not, a, _ => !a
  | .xor, a, b => a ^^ b
  | .nand, a, b => !(a && b)
  | .nor, a, b => !(a || b)

/-- The value of a gate on its input bits; a missing bit reads as false. -/
def eval (g : Gate) (bits : List Bool) : Bool :=
  g.apply (bits[0]?.getD false) (bits[1]?.getD false)

/-- The name in documents and expressions. -/
def name : Gate → String
  | .and => "AND"
  | .or => "OR"
  | .not => "NOT"
  | .xor => "XOR"
  | .nand => "NAND"
  | .nor => "NOR"

/-- The gate of a name in any mixture of capitals and small letters. -/
def ofName? (name : String) : Option Gate :=
  all.find? fun g => Text.sameLetters g.name name

/-- The cost of a gate in the complexity of a circuit. -/
def weight : Gate → Float
  | .not => 1
  | .and | .or => 2
  | .nand | .nor => 2.5
  | .xor => 3

end Gate

end LogicCircuit
