import LogicCircuit.Decimal.Shortest

/-!
# Layouts of decimals

How the digits of a decimal are set out. A layout is a record, so each format that writes numbers
states its decisions as a value.
-/

namespace LogicCircuit.Decimal

/-- The decisions of a number format. -/
structure Layout where
  /-- Whether a decimal whose first digit stands for this power of ten is written without an
  exponent. -/
  isPositional : Int → Bool
  /-- What follows a whole number. -/
  wholeMark : String

namespace Layout

/-- No number has an exponent, and a whole number has no point. -/
def plain : Layout := ⟨fun _ => true, ""⟩

/-- Digits with the point after the first `point` of them. -/
def positional (l : Layout) (digits : List Char) (point : Int) : String :=
  let zeros (n : Int) := List.replicate n.toNat '0'
  if point ≤ 0 then "0." ++ String.ofList (zeros (-point) ++ digits)
  else if digits.length ≤ point then
    String.ofList (digits ++ zeros (point - digits.length)) ++ l.wholeMark
  else String.ofList (digits.take point.toNat ++ '.' :: digits.drop point.toNat)

/-- Digits with the point after the first of them, and a power of ten with its sign. -/
def scientific (digits : List Char) (power : Int) : String :=
  let tail := digits.drop 1
  String.ofList (digits.take 1) ++ (if tail.isEmpty then "" else "." ++ String.ofList tail) ++
    (if power < 0 then "e-" else "e+") ++ toString power.natAbs

/-- The text of a decimal that is not negative. -/
def text (l : Layout) (d : Decimal) : String :=
  let digits := Nat.toDigits 10 d.digits
  if d.digits = 0 then "0" ++ l.wholeMark
  else
    let point := d.exponent + digits.length
    if l.isPositional (point - 1) then l.positional digits point
    else scientific digits (point - 1)

/-- The text of a finite number: its shortest decimal with its sign. -/
def signed (l : Layout) (p : Number.Parts) : String :=
  (if p.negative then "-" else "") ++ l.text (shortest p)

end Layout

/-- The text of any number, with no exponent. -/
def plainText (x : Float) : String :=
  match Number.parts? x with
  | some p => Layout.plain.signed p
  | none => if x.isNaN then "NaN" else if x < 0 then "-inf" else "inf"

end LogicCircuit.Decimal
