import LogicCircuit.Number.Parts

/-!
# The shortest decimal

The decimal with the fewest digits that reads back as a given finite number. All reals within half
a unit of a number read back as it; on the coarsest decimal grid that meets this interval, the
grid point nearest to the number is its shortest decimal. Everything is computed on whole numbers.
-/

namespace LogicCircuit

/-- A decimal: `digits * 10 ^ exponent`. -/
structure Decimal where
  /-- The digits as a whole number. -/
  digits : Nat
  /-- The power of ten. -/
  exponent : Int
  deriving DecidableEq, Repr

namespace Decimal

/-- The reals that read back as a number, in quarters of its last place: `low`, the number and
`high`, each over `unit`. -/
structure Interval where
  /-- The lower end. -/
  low : Nat
  /-- The number itself. -/
  mid : Nat
  /-- The upper end. -/
  high : Nat
  /-- The common denominator. -/
  unit : Nat
  /-- Whether the ends read back as the number too. -/
  closed : Bool
  deriving DecidableEq, Repr

/-- The interval of a number. Ends go to the neighbour with the even mantissa; below a power of
two the neighbour is only half as far. -/
def Interval.ofParts (p : Number.Parts) : Interval :=
  let atPower := p.mantissa == (1 <<< 52) && p.exponent > -1074
  let scale := 1 <<< (p.exponent - 2).toNat
  { low := (4 * p.mantissa - if atPower then 1 else 2) * scale
    mid := 4 * p.mantissa * scale
    high := (4 * p.mantissa + 2) * scale
    unit := 1 <<< (2 - p.exponent).toNat
    closed := p.mantissa % 2 == 0 }

/-- The interval in units of a power of ten. -/
def Interval.scaled (i : Interval) (exponent : Int) : Interval :=
  let up := Nat.pow 10 (-exponent).toNat
  { i with low := i.low * up, mid := i.mid * up, high := i.high * up
           unit := i.unit * Nat.pow 10 exponent.toNat }

/-- Whether a whole number of units lies in the interval. -/
def Interval.holds (i : Interval) (n : Nat) : Bool :=
  if i.closed then i.low ≤ n * i.unit && n * i.unit ≤ i.high
  else i.low < n * i.unit && n * i.unit < i.high

/-- The whole number of units that is in the interval and nearest to its number, if there is one.
Of two at the same distance the even one is taken. -/
def Interval.nearest? (i : Interval) : Option Nat :=
  let down := i.mid / i.unit
  let below := i.mid - down * i.unit
  let above := (down + 1) * i.unit - i.mid
  let downFirst := below < above || (below == above && down % 2 == 0)
  match i.holds down, i.holds (down + 1) with
  | true, true => some (if downFirst then down else down + 1)
  | true, false => some down
  | false, true => some (down + 1)
  | false, false => none

/-- The grid point of the first grid from `exponent` downwards that meets the interval, within so
many grids. -/
def search (i : Interval) : (grids : Nat) → (exponent : Int) → Decimal
  | 0, exponent => ⟨(i.scaled exponent).mid / (i.scaled exponent).unit, exponent⟩
  | grids + 1, exponent =>
    match (i.scaled exponent).nearest? with
    | some digits => ⟨digits, exponent⟩
    | none => search i grids (exponent - 1)

/-- The shortest decimal of a number. The search starts above the highest digit and needs no more
than 17 digits from there. -/
def shortest (p : Number.Parts) : Decimal :=
  if p.mantissa = 0 then ⟨0, 0⟩
  -- 30103 / 100000 is just above the decimal logarithm of 2
  else search (.ofParts p) 25 (((p.mantissa.log2 : Int) + p.exponent + 1) * 30103 / 100000 + 2)

end Decimal

end LogicCircuit
