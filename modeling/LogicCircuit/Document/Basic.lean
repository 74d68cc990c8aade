import LogicCircuit.Circuit.Edit

/-!
# Circuit documents

A document lists the components of a circuit with their state, and its wires. Loading adds the
components first and then replays the wires in the order of the document; a wire that is refused
is skipped and reported. Strict loading refuses a document whose wires form a cycle when none of
them is skipped for that reason.
-/

namespace LogicCircuit

/-- A component as a document lists it. -/
structure ComponentRecord where
  /-- Its name; the empty name asks for a new one. -/
  id : ComponentId
  /-- Its category. -/
  category : String
  /-- Its kind within the category. -/
  subtype : String
  /-- Where it stands. -/
  position : Point
  /-- The number of its slots, for information. -/
  arity : Nat
  /-- What it showed, for information. -/
  output : Option Value
  /-- Its label. -/
  label : Option String
  /-- The level of a source, or the number on a display. -/
  value : Option Value
  /-- The frequency of a clock. -/
  frequency : Option Float
  /-- Whether a clock runs. -/
  enabled : Option Bool
  deriving DecidableEq, Repr

/-- A wire as a document lists it. -/
structure WireRecord where
  /-- Its name in the document. -/
  id : WireId
  /-- The component that it comes from. -/
  source : ComponentId
  /-- The port that it comes from. -/
  sourcePort : Port
  /-- The component that it goes to. -/
  target : ComponentId
  /-- The port that it goes to. -/
  targetPort : Port
  deriving DecidableEq, Repr

/-- A circuit document. -/
structure Document where
  /-- The components. -/
  components : List ComponentRecord
  /-- The wires. -/
  wires : List WireRecord
  deriving DecidableEq, Repr

/-- Why a document cannot be loaded. -/
inductive DocumentError where
  /-- The text is no circuit document. -/
  | malformed
  /-- There is no such kind of component. -/
  | unknownKind (category subtype : String)
  /-- Two components have the same name. -/
  | duplicateId (id : ComponentId)
  /-- The wires form a cycle through this component. -/
  | cycle (id : ComponentId)
  deriving DecidableEq, Repr

/-- The wording of a refusal to load. -/
def DocumentError.message : DocumentError → String
  | malformed => "Malformed circuit document"
  | unknownKind category subtype => s!"Unknown component type {category}/{subtype}"
  | duplicateId id => s!"Component id {id} is used twice"
  | cycle id => s!"Connections form a cycle through {id}"

/-- The wires that were skipped while loading, with the reasons. -/
abbrev LoadReport := List (WireId × WiringError)

namespace ComponentRecord

/-- The record of a component. -/
def ofComponent (x : Component) : ComponentRecord where
  id := x.id
  category := x.kind.category
  subtype := x.kind.subtype
  position := x.position
  arity := x.arity
  output := some x.value
  label := x.label
  value := match x.kind with
    | .source s => some (.bit s.level)
    | .sink ⟨.display, bits⟩ => some (Sink.value ⟨.display, bits⟩)
    | _ => none
  frequency := (x.kind.source?.bind (·.kind.timing?)).map (·.frequency)
  enabled := (x.kind.source?.bind (·.kind.timing?)).map (·.enabled)

/-- A clock with the timing of a record. -/
def timing (r : ComponentRecord) (clock : Clock) : Clock :=
  let clock := match r.frequency with
    | some hz => clock.setFrequency hz
    | none => clock
  match r.enabled with
  | some enabled => { clock with enabled }
  | none => clock

/-- A source with the state of a record. -/
def sourceState (r : ComponentRecord) (s : Source) : Source :=
  let s := match r.value with
    | some v => s.setLevel v.isSet
    | none => s
  s.mapClock r.timing

/-- The component of a record, unless there is no such kind. -/
def component? (r : ComponentRecord) : Option Component :=
  (Kind.ofNames? r.category r.subtype).map fun kind =>
    { Component.ofKind (kind.mapSource r.sourceState) r.position with
      id := r.id, label := r.label }

end ComponentRecord

namespace Document

/-- The document of a circuit. -/
def ofCircuit (c : Circuit) : Document where
  components := c.components.entries.map .ofComponent
  wires := c.wires.entries.map fun w => ⟨w.id, w.source, ⟨.output, 0⟩, w.target, ⟨.input, w.slot⟩⟩

/-- Adds the components of records to a circuit. No two of the records may have the same name,
apart from the empty one; `seen` holds the names of earlier records. -/
def addComponents (seen : List ComponentId) :
    List ComponentRecord → Circuit → Except DocumentError Circuit
  | [], c => .ok c
  | r :: records, c =>
    if r.id ≠ "" ∧ r.id ∈ seen then .error (.duplicateId r.id)
    else
      match r.component? with
      | none => .error (.unknownKind r.category r.subtype)
      | some x => addComponents (r.id :: seen) records (c.add x).2

/-- Adds all wires that lead from an output to an input, even those that close cycles. -/
def forceWires (c : Circuit) (wires : List WireRecord) : Circuit :=
  wires.foldl (fun c w =>
    if w.sourcePort.direction = .output ∧ w.targetPort.direction = .input then
      match c.force w.source w.target w.targetPort.index with
      | .ok (_, c) => c
      | .error _ => c
    else c) c

/-- Adds wires in turn, skipping those that are refused. -/
def replayWires : List WireRecord → Circuit → LoadReport × Circuit
  | [], c => ([], c)
  | w :: wires, c =>
    match c.connectPorts w.source w.sourcePort w.target w.targetPort with
    | .ok (_, c) => replayWires wires c
    | .error reason =>
      let rest := replayWires wires c
      ((w.id, reason) :: rest.1, rest.2)

/-- The circuit of a document, with the wires that were skipped. -/
def toCircuit (d : Document) (strict : Bool) : Except DocumentError (LoadReport × Circuit) :=
  match addComponents [] d.components .empty with
  | .error e => .error e
  | .ok c =>
    match if strict then (forceWires c d.wires).findCycle? else none with
    | some id => .error (.cycle id)
    | none => .ok (replayWires d.wires c)

end Document

end LogicCircuit
