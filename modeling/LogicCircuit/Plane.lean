import LogicCircuit.Number.Hypotenuse

/-!
# The drawing plane

Points, boxes and distances, as far as layout and pointing at things need them.
-/

namespace LogicCircuit

/-- A point of the drawing plane. -/
structure Point where
  /-- To the right. -/
  x : Float
  /-- Downwards. -/
  y : Float
  deriving DecidableEq, Repr

namespace Point

/-- The corner of the plane. -/
def origin : Point := ⟨0, 0⟩

/-- The point moved by a distance to the right and a distance down. -/
def shifted (p : Point) (dx dy : Float) : Point := ⟨p.x + dx, p.y + dy⟩

/-- The distance between two points. -/
def distance (p q : Point) : Float := Number.hypotenuse (p.x - q.x) (p.y - q.y)

/-- A number brought into the range from 0 to 1; what is not a number stays as it is. -/
def fraction (t : Float) : Float := if t < 0 then 0 else if t > 1 then 1 else t

/-- The distance from a point to the nearest point of the segment from `a` to `b`. -/
def distanceToSegment (p a b : Point) : Float :=
  let dx := b.x - a.x
  let dy := b.y - a.y
  let square := dx * dx + dy * dy
  if square == 0 then p.distance a
  else
    let t := fraction (((p.x - a.x) * dx + (p.y - a.y) * dy) / square)
    p.distance ⟨a.x + t * dx, a.y + t * dy⟩

end Point

/-- A box with sides along the axes. -/
structure Box where
  /-- The top left corner. -/
  corner : Point
  /-- The extent to the right. -/
  width : Float
  /-- The extent downwards. -/
  height : Float
  deriving DecidableEq, Repr

/-- Whether a point is inside a box or on its border. -/
def Box.contains (b : Box) (p : Point) : Bool :=
  p.x ≥ b.corner.x && p.x ≤ b.corner.x + b.width &&
    p.y ≥ b.corner.y && p.y ≤ b.corner.y + b.height

end LogicCircuit
