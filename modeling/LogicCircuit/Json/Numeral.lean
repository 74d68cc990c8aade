/-!
# JSON numbers

The grammar of numbers and what their digits mean. A number without point and exponent is a whole
number if 64 bits hold it. Any number is a floating point number: the digits that fit 64 bits make
a whole number, and one multiplication or division by a power of ten puts the point in its place.
This is not always the nearest floating point number.
-/

namespace LogicCircuit.Json

/-- The parts of a written number. -/
structure Numeral where
  /-- Whether a minus sign stands in front. -/
  negative : Bool
  /-- The digits before the point. -/
  whole : List Nat
  /-- The digits behind the point, if there is one. -/
  fraction : Option (List Nat)
  /-- The power of ten, if one is written. -/
  exponent : Option Int
  deriving DecidableEq, Repr

namespace Numeral

/-- The digits at the start of a text, and the rest. -/
def digits : List Char → List Nat × List Char
  | [] => ([], [])
  | c :: cs =>
    if c.isDigit then
      let rest := digits cs
      ((c.toNat - '0'.toNat) :: rest.1, rest.2)
    else ([], c :: cs)

/-- The number that digits spell. -/
def value (ds : List Nat) : Nat := ds.foldl (fun n d => 10 * n + d) 0

/-- The sign at the start of a text, and the rest. -/
def sign (minus : Char) : List Char → Bool × List Char
  | c :: cs => if c = minus then (true, cs) else (false, c :: cs)
  | [] => (false, [])

/-- The digits before the point: a zero stands alone. -/
def whole? (s : List Char) : Option (List Nat × List Char) :=
  match digits s with
  | ([], _) => none
  | (0 :: _ :: _, _) => none
  | r => some r

/-- The point with the digits behind it, if there is one. -/
def fraction? : List Char → Option (Option (List Nat) × List Char)
  | '.' :: s =>
    match digits s with
    | ([], _) => none
    | (ds, rest) => some (some ds, rest)
  | s => some (none, s)

/-- The digits of an exponent behind its letter, with an optional sign. -/
def power? (s : List Char) : Option Int :=
  let (negative, s) := sign '-' s
  let s := if negative then s else (sign '+' s).2
  match digits s with
  | (d :: ds, []) => some (if negative then -(value (d :: ds) : Int) else value (d :: ds))
  | _ => none

/-- The exponent at the end of a number, if there is one. -/
def exponent? : List Char → Option (Option Int)
  | [] => some none
  | c :: s => if c = 'e' ∨ c = 'E' then (power? s).map some else none

/-- The parts of a text that is a number. -/
def ofChars? (s : List Char) : Option Numeral := do
  let (negative, s) := sign '-' s
  let (whole, s) ← whole? s
  let (fraction, s) ← fraction? s
  let exponent ← exponent? s
  return ⟨negative, whole, fraction, exponent⟩

/-- The first number that 64 bits do not hold. -/
def wordLimit : Nat := 1 <<< 64

/-- The whole number of 64 bits that is written, if it is one. -/
def word? (n : Numeral) : Option Nat :=
  match n with
  | ⟨false, whole, none, none⟩ => if value whole < wordLimit then some (value whole) else none
  | _ => none

/-- The first digits as long as 64 bits hold the number that they make: that number and how many
are left. -/
def take : List Nat → Nat → Nat × Nat
  | [], n => (n, 0)
  | d :: ds, n => if 10 * n + d < wordLimit then take ds (10 * n + d) else (n, ds.length + 1)

/-- A power of ten. -/
def tenTo (n : Nat) : Float := Float.ofScientific 1 false n

/-- The greatest power of ten that is a floating point number. -/
def greatestPower : Nat := 308

/-- A number times a power of ten, in one step where the power is a floating point number. A
result that is too large is none. -/
def scale (x : Float) (power : Int) : Option Float :=
  if power.natAbs ≤ greatestPower then
    if 0 ≤ power then
      let y := x * tenTo power.toNat
      if y.isInf then none else some y
    else some (x / tenTo power.natAbs)
  -- beyond the powers that exist a zero stays, too large is an error, too small goes on in steps
  else if x == 0 then some x
  else if 0 ≤ power then none
  else scale (x / tenTo greatestPower) (power + greatestPower)
termination_by (-power).toNat
decreasing_by simp only [greatestPower] at *; omega

/-- The floating point number that is written, unless it is too large. -/
def float? (n : Numeral) : Option Float :=
  let (front, dropped) := take n.whole 0
  let behind := n.fraction.getD []
  let (significand, left) := take behind front
  let power := (dropped : Int) - (behind.length - left : Nat) + n.exponent.getD 0
  (scale (Float.ofNat significand) power).map fun x => if n.negative then -x else x

end Numeral

end LogicCircuit.Json
