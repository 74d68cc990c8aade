import LogicCircuit.Component.Sink
import LogicCircuit.Component.Source
import LogicCircuit.Gate

/-!
# Kinds of components

A component is a gate, a source or a sink. The document names of a kind are its category and its
subtype; `Kind.ofNames?` reads them back, the category exactly and the subtype in any case.
-/

namespace LogicCircuit

/-- What a component is, with the state that belongs to it. -/
inductive Kind where
  | gate (g : Gate)
  | source (s : Source)
  | sink (s : Sink)
  deriving DecidableEq, Repr

namespace Kind

/-- The number of input slots. -/
def arity : Kind → Nat
  | gate g => g.arity
  | source _ => 0
  | sink s => s.kind.arity

/-- The category in documents. -/
def category : Kind → String
  | gate _ => "gate"
  | source _ => "input"
  | sink _ => "output"

/-- The name within the category. -/
def subtype : Kind → String
  | gate g => g.name
  | source s => s.kind.name
  | sink s => s.kind.name

/-- A new kind from its document names. -/
def ofNames? (category subtype : String) : Option Kind :=
  if category = "gate" then (Gate.ofName? subtype).map gate
  else if category = "input" then (SourceKind.ofName? subtype).map fun k => source (.ofKind k)
  else if category = "output" then (SinkKind.ofName? subtype).map fun k => sink (.ofKind k)
  else none

/-- Whether the kind is a gate. -/
def isGate : Kind → Bool
  | gate _ => true
  | _ => false

/-- Whether the kind is a source. -/
def isSource : Kind → Bool
  | source _ => true
  | _ => false

/-- Whether the kind is a sink. -/
def isSink : Kind → Bool
  | sink _ => true
  | _ => false

/-- The function of a gate. -/
def gate? : Kind → Option Gate
  | gate g => some g
  | _ => none

/-- The state of a source. -/
def source? : Kind → Option Source
  | source s => some s
  | _ => none

/-- The state of a sink. -/
def sink? : Kind → Option Sink
  | sink s => some s
  | _ => none

/-- The kind with the state of a source changed. -/
def mapSource (k : Kind) (change : Source → Source) : Kind :=
  match k with
  | source s => source (change s)
  | k => k

/-- The width and height of a component of this kind. -/
def size : Kind → Float × Float
  | gate _ => (80, 60)
  | sink ⟨.display, _⟩ => (80, 100)
  | _ => (60, 60)

end Kind

end LogicCircuit
