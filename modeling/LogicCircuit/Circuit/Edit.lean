import LogicCircuit.Circuit.Basic

/-!
# Editing a circuit

Every change of the topology: adding and removing components and wires. `Circuit.objection?` lists
the reasons to refuse a wire in the order in which they are looked for; a refused wire changes
nothing. `Circuit.connect` refuses to close a cycle, `Circuit.force` does not mind.
-/

namespace LogicCircuit

/-- The reason why a wire is refused. -/
inductive WiringError where
  /-- An end does not exist. -/
  | unknownComponent (id : ComponentId)
  /-- Both ends are the same component. -/
  | selfLoop (id : ComponentId)
  /-- The wire does not lead from an output to an input. -/
  | wrongPorts
  /-- The component has no such slot. -/
  | slotOutOfRange (id : ComponentId) (slot arity : Nat)
  /-- The wire would close a cycle. -/
  | wouldCreateCycle (source target : ComponentId)
  deriving DecidableEq, Repr

/-- The wording of a refusal. -/
def WiringError.message : WiringError → String
  | unknownComponent id => s!"Unknown component {id}"
  | selfLoop id => s!"Cannot connect {id} to itself"
  | wrongPorts => "Connections must go from an output port to an input port"
  | slotOutOfRange id slot arity => s!"{id} has {arity} inputs, slot {slot} does not exist"
  | wouldCreateCycle source target => s!"Connecting {source} to {target} would create a cycle"

/-- The direction of a port. -/
inductive Direction where
  | input
  | output
  deriving DecidableEq, Repr

/-- A port of a component. -/
structure Port where
  /-- Whether it is an input or the output. -/
  direction : Direction
  /-- Its place among the ports of its direction. -/
  index : Nat
  deriving DecidableEq, Repr

/-- The first number above `n` that is free, as long as one of the next `tries` is; else the one
after those. -/
def firstFree (free : Nat → Bool) : (tries : Nat) → (n : Nat) → Nat
  | 0, n => n + 1
  | tries + 1, n => if free (n + 1) then n + 1 else firstFree free tries (n + 1)

namespace Circuit

/-- The generated name of a component of some category. -/
def componentName (category : String) (n : Nat) : ComponentId := s!"{category}-{n}"

/-- The generated name of a wire. -/
def wireName (n : Nat) : WireId := s!"connection-{n}"

/-- The next number that gives a new name to a component of some category. Among one more
candidate than there are components, one is free. -/
def freshComponentNumber (c : Circuit) (category : String) : Nat :=
  firstFree (fun n => !c.components.contains (componentName category n)) c.components.size
    c.lastNumber

/-- The next number that gives a new name to a wire. -/
def freshWireNumber (c : Circuit) : Nat :=
  firstFree (fun n => !c.wires.contains (wireName n)) c.wires.size c.lastNumber

/-- Removes a wire and frees the slot that it is on; `none` if there is no such wire. -/
def disconnect? (c : Circuit) (id : WireId) : Option Circuit :=
  (c.wire? id).map fun w =>
    { c with
      components := c.components.modify w.target
        (fun x => if x.slots[w.slot]? = some (some id) then x.plug w.slot none else x)
        (fun _ => by split <;> rfl)
      wires := c.wires.erase id
      revision := c.revision + 1 }

/-- Removes a wire if it exists. -/
def disconnect (c : Circuit) (id : WireId) : Circuit := (c.disconnect? id).getD c

/-- The wires that start or end at a component, by name. -/
def incident (c : Circuit) (id : ComponentId) : List WireId :=
  (c.wires.entries.filter fun w => w.source == id || w.target == id).map (·.id)

/-- Removes a component and every wire at it; `none` if there is no such component. -/
def remove? (c : Circuit) (id : ComponentId) : Option Circuit :=
  if c.components.contains id then
    let bare := (c.incident id).foldl disconnect c
    some { bare with components := bare.components.erase id, revision := bare.revision + 1 }
  else none

/-- Removes a component if it exists, with every wire at it. -/
def remove (c : Circuit) (id : ComponentId) : Circuit := (c.remove? id).getD c

/-- Puts a component into a circuit that has none of its name. -/
def place (c : Circuit) (x : Component) : Circuit :=
  { c with components := c.components.insert x.unplugged, revision := c.revision + 1 }

/-- Adds a component with nothing on its slots, and gives its name. A component without a name
gets a new one; one of the same name is removed first. -/
def add (c : Circuit) (x : Component) : ComponentId × Circuit :=
  if x.id = "" then
    let n := c.freshComponentNumber x.kind.category
    let id := componentName x.kind.category n
    (id, place { c with lastNumber := n } (x.withId id))
  else (x.id, (c.remove x.id).place x)

/-- Removes all components and wires; names that were generated before are not generated again. -/
def clear (c : Circuit) : Circuit :=
  { c with components := .empty, wires := .empty, revision := c.revision + 1 }

/-- The first reason to refuse a wire. -/
def objection? (c : Circuit) (loopsAllowed : Bool) (source target : ComponentId) (slot : Nat) :
    Option WiringError :=
  match c.component? source, c.component? target with
  | none, _ => some (.unknownComponent source)
  | some _, none => some (.unknownComponent target)
  | some s, some t =>
    -- the search for a cycle is the costly check, so it comes last
    if source = target then some (.selfLoop source)
    else if s.kind.isSink then some .wrongPorts
    else if t.arity ≤ slot then some (.slotOutOfRange target slot t.arity)
    else if !loopsAllowed && c.wouldCreateCycle source target then
      some (.wouldCreateCycle source target)
    else none

/-- Removes the wire on a slot, if there is one. -/
def free (c : Circuit) (target : ComponentId) (slot : Nat) : Circuit :=
  match (c.component? target).bind fun t => t.slots[slot]? with
  | some (some wire) => c.disconnect wire
  | _ => c

/-- Puts a new wire on a slot, and gives its name. -/
def attach (c : Circuit) (source target : ComponentId) (slot : Nat) : WireId × Circuit :=
  let n := c.freshWireNumber
  let id := wireName n
  (id,
    { components := c.components.modify target (fun x => x.plug slot (some id)) fun _ => rfl
      wires := c.wires.insert ⟨id, source, target, slot⟩
      lastNumber := n
      revision := c.revision + 1 })

/-- Connects unless there is an objection; a wire that is on the slot gives way. -/
def wireUp (c : Circuit) (loopsAllowed : Bool) (source target : ComponentId) (slot : Nat) :
    Except WiringError (WireId × Circuit) :=
  match c.objection? loopsAllowed source target slot with
  | some reason => .error reason
  | none => .ok ((c.free target slot).attach source target slot)

/-- Connects the output of a component to a slot of another, unless that closes a cycle. -/
def connect (c : Circuit) (source target : ComponentId) (slot : Nat) :
    Except WiringError (WireId × Circuit) :=
  c.wireUp false source target slot

/-- Connects the output of a component to a slot of another, even if that closes a cycle. -/
def force (c : Circuit) (source target : ComponentId) (slot : Nat) :
    Except WiringError (WireId × Circuit) :=
  c.wireUp true source target slot

/-- Connects two ports, which have to be an output and an input, unless that closes a cycle. -/
def connectPorts (c : Circuit) (source : ComponentId) (sourcePort : Port) (target : ComponentId)
    (targetPort : Port) : Except WiringError (WireId × Circuit) :=
  if sourcePort.direction = .output ∧ targetPort.direction = .input then
    c.connect source target targetPort.index
  else .error .wrongPorts

end Circuit

end LogicCircuit
