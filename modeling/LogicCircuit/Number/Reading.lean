import LogicCircuit.Text.Pieces

/-!
# Reading numbers

Whole numbers of 64 bits and floating point numbers as people type them. A number may have a sign,
digits on either side of a point, and a power of ten; infinity and what is not a number have
names.
-/

namespace LogicCircuit.Number

/-- The number that digits spell; there has to be at least one. -/
def natOf? (s : List Char) : Option Nat :=
  if s.isEmpty || !s.all Char.isDigit then none
  else some (s.foldl (fun n c => 10 * n + (c.toNat - '0'.toNat)) 0)

/-- A whole number of 64 bits, with an optional plus sign. -/
def word? (s : String) : Option Nat := do
  let digits := match s.toList with
    | '+' :: cs => cs
    | cs => cs
  let n ← natOf? digits
  if n < 1 <<< 64 then some n else none

/-- The nearest floating point number to `digits * 10 ^ power`. Powers far out of range are cut
down to where the result is infinite or zero all the same. -/
def nearest (digits : Nat) (power : Int) : Float :=
  let reach : Int := 400 + digits.log2
  let power := max (-reach) (min 400 power)
  if power < 0 then Float.ofScientific digits true power.natAbs
  else Float.ofScientific digits false power.natAbs

/-- The power of ten behind its letter, with an optional sign. -/
def powerOf? : List Char → Option Int
  | '-' :: cs => (natOf? cs).map fun n => -(n : Int)
  | '+' :: cs => (natOf? cs).map fun n => (n : Int)
  | cs => (natOf? cs).map fun n => (n : Int)

/-- A number without sign. -/
def magnitude? (s : List Char) : Option Float := do
  let small := String.ofList (s.map Char.toLower)
  if small = "inf" ∨ small = "infinity" then return 1 / 0
  if small = "nan" then return 0 / 0
  let (mantissa, power) := Text.splitAt (fun c => c = 'e' ∨ c = 'E') s
  let power ← match power with
    | none => some 0
    | some cs => powerOf? cs
  let (whole, fraction) := Text.splitAt (· = '.') mantissa
  let behind := fraction.getD []
  let digits ← natOf? (whole ++ behind)
  return nearest digits (power - behind.length)

/-- A floating point number, with an optional sign. -/
def float? (s : String) : Option Float :=
  match s.toList with
  | '-' :: cs => (magnitude? cs).map fun x => -x
  | '+' :: cs => magnitude? cs
  | cs => magnitude? cs

end LogicCircuit.Number
