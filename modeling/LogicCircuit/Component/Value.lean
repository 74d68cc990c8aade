import LogicCircuit.Text.Letters

/-!
# Values

What a component shows: one bit, or the number on a display. Bits become a number with the first
bit as the lowest.
-/

namespace LogicCircuit

/-- What a component shows. -/
inductive Value where
  /-- One bit. -/
  | bit (on : Bool)
  /-- The number on a display. -/
  | number (n : Nat)
  deriving DecidableEq, Repr

namespace Value

/-- The value as one bit: a number counts as set unless it is zero. -/
def isSet : Value → Bool
  | bit on => on
  | number n => n != 0

/-- The text of a value: a bit as 0 or 1, a number in hexadecimal with capitals. -/
def text : Value → String
  | bit on => if on then "1" else "0"
  | number n => Text.capitals (String.ofList (Nat.toDigits 16 n))

end Value

/-- The number whose binary digits are these bits, the lowest first. -/
def bitsToNat : List Bool → Nat
  | [] => 0
  | b :: bs => b.toNat + 2 * bitsToNat bs

end LogicCircuit
