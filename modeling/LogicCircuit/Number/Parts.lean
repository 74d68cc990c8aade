/-!
# The parts of a floating point number

A finite number of the 64-bit format is a whole number times a power of two. Everything that has
to be exact about such numbers (their shortest decimal text, the length of a hypotenuse) is
computed on these whole numbers.
-/

namespace LogicCircuit.Number

/-- A finite number: `mantissa * 2 ^ exponent`, negated if `negative`. -/
structure Parts where
  /-- Whether the sign bit is set. -/
  negative : Bool
  /-- The whole mantissa, below `2 ^ 53`. -/
  mantissa : Nat
  /-- The power of two, at least -1074. -/
  exponent : Int
  deriving DecidableEq, Repr

/-- The parts of a number, unless it is infinite or not a number. A zero exponent field stands for
the numbers next to zero, which lack the leading bit. -/
def parts? (x : Float) : Option Parts :=
  let bits := x.toBits.toNat
  let negative := bits.testBit 63
  let field : Nat := (bits >>> 52) % (1 <<< 11)
  let fraction := bits % (1 <<< 52)
  if field = 2047 then none
  else if field = 0 then some ⟨negative, fraction, -1074⟩
  else some ⟨negative, (1 <<< 52) + fraction, (field : Int) - 1075⟩

end LogicCircuit.Number
