import LogicCircuit.Text.Letters

/-!
# Sources

A source drives wires from a stored level. A clock carries its own timing: it toggles when half a
period has passed since it last did, and its frequency never leaves the range from 0.1 to 10 Hz.
-/

namespace LogicCircuit

/-- The timing of a clock. -/
structure Clock where
  /-- Whether the clock runs. -/
  enabled : Bool
  /-- Periods per second. -/
  frequency : Float
  /-- When the clock last toggled, in milliseconds. -/
  lastToggle : Float
  deriving DecidableEq, Repr

namespace Clock

/-- A new clock runs at 1 Hz from time zero. -/
def initial : Clock := ⟨true, 1, 0⟩

/-- The lowest frequency, in Hz. -/
def minFrequency : Float := 0.1

/-- The highest frequency, in Hz. -/
def maxFrequency : Float := 10

/-- A frequency brought into the range of a clock; what is not a number becomes 1 Hz. -/
def limit (hz : Float) : Float :=
  if hz.isNaN then 1
  else if hz < minFrequency then minFrequency
  else if hz > maxFrequency then maxFrequency
  else hz

/-- The clock at another frequency, as far as the range allows. -/
def setFrequency (c : Clock) (hz : Float) : Clock := { c with frequency := limit hz }

/-- Half a period, in milliseconds. -/
def halfPeriod (c : Clock) : Float := 500 / c.frequency

/-- Whether the clock toggles at this time. -/
def isDue (c : Clock) (now : Float) : Bool := c.enabled && now - c.lastToggle ≥ c.halfPeriod

end Clock

/-- The kind of a source. -/
inductive SourceKind where
  /-- Stays as it was set. -/
  | switch
  /-- Is on while it is pressed. -/
  | button
  /-- Toggles by itself. -/
  | clock (timing : Clock)
  /-- A constant one. -/
  | high
  /-- A constant zero. -/
  | low
  deriving DecidableEq, Repr

namespace SourceKind

/-- Every kind of source, in its initial state. -/
def all : List SourceKind := [.switch, .button, .clock .initial, .high, .low]

/-- The name in documents. -/
def name : SourceKind → String
  | switch => "switch"
  | button => "button"
  | clock _ => "clock"
  | high => "high"
  | low => "low"

/-- The kind of a name in any mixture of capitals and small letters. -/
def ofName? (name : String) : Option SourceKind :=
  all.find? fun k => Text.sameLetters k.name name

/-- The level of a new source. -/
def initialLevel : SourceKind → Bool
  | high => true
  | _ => false

/-- The timing of a clock. -/
def timing? : SourceKind → Option Clock
  | clock timing => some timing
  | _ => none

/-- Whether truth tables run through the levels of such sources: switches and constants, but
neither buttons nor clocks. -/
def isTabulated : SourceKind → Bool
  | switch | high | low => true
  | button | clock _ => false

/-- Whether the source is a constant. -/
def isConstant : SourceKind → Bool
  | high | low => true
  | _ => false

end SourceKind

/-- A source with its state. -/
structure Source where
  /-- Its kind. -/
  kind : SourceKind
  /-- The stored level; for a button, whether it is pressed. -/
  level : Bool
  deriving DecidableEq, Repr

namespace Source

/-- A new source. -/
def ofKind (kind : SourceKind) : Source := ⟨kind, kind.initialLevel⟩

/-- The source with its clock changed, if it is one. -/
def mapClock (s : Source) (change : Clock → Clock) : Source :=
  match s.kind with
  | .clock timing => { s with kind := .clock (change timing) }
  | _ => s

/-- The source with another level. -/
def setLevel (s : Source) (level : Bool) : Source := { s with level }

/-- Whether the source is a clock that toggles at this time. -/
def isDue (s : Source) (now : Float) : Bool :=
  match s.kind with
  | .clock timing => timing.isDue now
  | _ => false

/-- The source after its clock toggled at this time. -/
def toggleAt (s : Source) (now : Float) : Source :=
  (s.mapClock fun c => { c with lastToggle := now }).setLevel (!s.level)

/-- The source at its initial level, with the clock counting from this time. -/
def reset (s : Source) (now : Float) : Source :=
  (s.mapClock fun c => { c with lastToggle := now }).setLevel s.kind.initialLevel

end Source

end LogicCircuit
