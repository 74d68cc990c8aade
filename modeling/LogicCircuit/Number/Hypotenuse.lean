import LogicCircuit.Number.Parts

/-!
# The hypotenuse

The length of the hypotenuse over two legs, rounded once: the squares are summed exactly as whole
numbers, the root is taken to more bits than a mantissa holds, and a last bit records whether it
was cut. So legs of 6 and 8 give exactly 10, and large legs do not overflow on the way.
-/

namespace LogicCircuit.Number

/-- The whole part of a square root. -/
def root (n : Nat) : Nat :=
  if n = 0 then 0
  else
    let r := 2 * root (n / 4)
    if (r + 1) * (r + 1) ≤ n then r + 1 else r
decreasing_by omega

/-- Twice the whole part of a square root, plus one if the root is not whole. -/
def rootTwice (n : Nat) : Nat :=
  let r := root n
  if r * r = n then 2 * r else 2 * r + 1

/-- The floating point number nearest to `n * 2 ^ e`. Of a longer number the 64 leading bits are
kept, and the last of them is set if anything but zeros was cut off: enough to round the right
way. -/
def scaled (n : Nat) (e : Int) : Float :=
  let cut := n.log2 - 63
  let kept := n >>> cut
  let leading := if kept <<< cut = n then kept else kept ||| 1
  leading.toUInt64.toFloat.scaleB (e + cut)

/-- The length of the hypotenuse over the legs `a` and `b`. An infinite leg makes it infinite, and
over one leg of length zero it is the other leg. -/
def hypotenuse (a b : Float) : Float :=
  if a.isInf || b.isInf then 1 / 0
  else if a == 0 then b.abs
  else if b == 0 then a.abs
  else
    match parts? a, parts? b with
    | some p, some q =>
      let low := min p.exponent q.exponent
      let leg (r : Parts) := r.mantissa <<< (r.exponent - low).toNat
      let square := leg p * leg p + leg q * leg q
      -- the root of 2 ^ 128 times the square has 64 more bits, and one more is there to round by
      scaled (rootTwice (square <<< 128)) (low - 65)
    | _, _ => 0 / 0

end LogicCircuit.Number
