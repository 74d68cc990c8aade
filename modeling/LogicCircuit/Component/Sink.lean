import LogicCircuit.Component.Value

/-!
# Sinks

A sink shows the bits that arrive at its inputs. A probe also remembers the latest of them:
`remember` is a queue that forgets its oldest entry once it holds `historyLimit` of them.
-/

namespace LogicCircuit

/-- The kind of a sink. -/
inductive SinkKind where
  /-- A lamp. -/
  | bulb
  /-- A digit of four bits. -/
  | display
  /-- A probe with its recent values, the oldest first. -/
  | probe (history : List Bool)
  /-- A loudspeaker. -/
  | speaker
  deriving DecidableEq, Repr

namespace SinkKind

/-- How many values a probe remembers. -/
def historyLimit : Nat := 50

/-- The tone of a loudspeaker, in Hz. -/
def speakerTone : Float := 440

/-- Every kind of sink, in its initial state. -/
def all : List SinkKind := [.bulb, .display, .probe [], .speaker]

/-- The number of inputs. -/
def arity : SinkKind → Nat
  | display => 4
  | _ => 1

/-- The name in documents. -/
def name : SinkKind → String
  | bulb => "bulb"
  | display => "display"
  | probe _ => "probe"
  | speaker => "speaker"

/-- The kind of a name in any mixture of capitals and small letters. -/
def ofName? (name : String) : Option SinkKind :=
  all.find? fun k => Text.sameLetters k.name name

/-- The recent values of a probe, the oldest first. -/
def history : SinkKind → List Bool
  | probe history => history
  | _ => []

/-- The tone of a loudspeaker, in Hz. -/
def tone? : SinkKind → Option Float
  | speaker => some speakerTone
  | _ => none

/-- The kind after one more bit arrived: a probe adds it to its history and keeps the latest
values. -/
def remember : SinkKind → Bool → SinkKind
  | probe history, b => probe ((history ++ [b]).drop (history.length + 1 - historyLimit))
  | k, _ => k

/-- The kind with an empty history. -/
def forget : SinkKind → SinkKind
  | probe _ => probe []
  | k => k

end SinkKind

/-- A sink with its state. -/
structure Sink where
  /-- Its kind. -/
  kind : SinkKind
  /-- The bits that arrived last, by slot. -/
  bits : List Bool
  deriving DecidableEq, Repr

namespace Sink

/-- A new sink. -/
def ofKind (kind : SinkKind) : Sink := ⟨kind, List.replicate kind.arity false⟩

/-- What the sink shows: a display the number of its bits, any other sink its bit. -/
def value (s : Sink) : Value :=
  match s.kind with
  | .display => .number (bitsToNat s.bits)
  | _ => .bit (s.bits.headD false)

/-- The bits of a sink after others arrived on as many slots as there are. -/
def overwrite : List Bool → List Bool → List Bool
  | _ :: old, b :: new => b :: overwrite old new
  | old, _ => old

/-- The sink after these bits arrived. -/
def receive (s : Sink) (inputs : List Bool) : Sink :=
  let bits := overwrite s.bits inputs
  ⟨s.kind.remember (bits.headD false), bits⟩

/-- The sink as it was before any bit arrived. -/
def reset (s : Sink) : Sink := ⟨s.kind.forget, s.bits.map fun _ => false⟩

end Sink

end LogicCircuit
