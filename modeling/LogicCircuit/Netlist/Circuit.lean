import LogicCircuit.Netlist.Reader

/-!
# From netlists to circuits

Inputs become switches, gates become gates and outputs become bulbs, each labelled with its
signal. Buffers and constants become nothing of their own: what reads them is wired to what drives
them.
-/

namespace LogicCircuit

namespace Netlist

/-- The name of the switch of an input. -/
def inputId (name : String) : ComponentId := "input-" ++ name

/-- The name of the gate of a signal. -/
def gateId (name : String) : ComponentId := "gate-" ++ name

/-- The name of the bulb of an output. -/
def outputId (name : String) : ComponentId := "output-" ++ name

/-- The name of the source of a constant. -/
def constantId (on : Bool) : ComponentId := if on then "const-1" else "const-0"

/-- The component of a driver; the source of a constant is added where it is first needed. -/
def sourceOf (d : Driver) (c : Circuit) : ComponentId × Circuit :=
  match d with
  | .input name => (inputId name, c)
  | .gate name => (gateId name, c)
  | .constant on =>
    if c.components.contains (constantId on) then (constantId on, c)
    else
      let kind : SourceKind := if on then .high else .low
      c.add ((Component.source kind ⟨50, 20⟩).withId (constantId on))

/-- The height of a row. -/
def rowAt (i : Nat) : Float := 100 + 80 * Float.ofNat i

/-- The place of a column. -/
def columnAt (i : Nat) : Float := 200 + 150 * Float.ofNat i

/-- Adds a switch for each input. -/
def addInputs (n : Netlist) (c : Circuit) : Circuit :=
  n.inputs.zipIdx.foldl (fun c (name, i) =>
    (c.add (((Component.source .switch ⟨50, rowAt i⟩).withId (inputId name)).withLabel name)).2) c

/-- Adds a gate for each signal that is one, ten to a column. -/
def addGates (n : Netlist) (c : Circuit) : Circuit :=
  n.signals.zipIdx.foldl (fun c (s, i) =>
    match s.operation with
    | .gate g =>
      (c.add
        (((Component.gate g ⟨columnAt (i / 10), rowAt (i % 10)⟩).withId (gateId s.name)).withLabel
          s.name)).2
    | _ => c) c

/-- Wires what drives a signal to a slot. -/
def drive (n : Netlist) (name : String) (target : ComponentId) (slot : Nat) (c : Circuit) :
    Except NetlistError Circuit := do
  let driver ← n.resolve name
  let (source, c) := sourceOf driver c
  match c.connect source target slot with
  | .error reason => .error (.refused reason)
  | .ok (_, c) => return c

/-- Wires what drives some signals to the slots of a component, from some slot on. -/
def driveAll (n : Netlist) (target : ComponentId) :
    List String → (slot : Nat) → Circuit → Except NetlistError Circuit
  | [], _, c => .ok c
  | name :: names, slot, c => do
    let c ← n.drive name target slot c
    n.driveAll target names (slot + 1) c

/-- Wires the arguments of the gates among some signals. -/
def driveGates (n : Netlist) : List Signal → Circuit → Except NetlistError Circuit
  | [], c => .ok c
  | s :: signals, c => do
    let c ← match s.operation with
      | .gate _ => n.driveAll (gateId s.name) s.args 0 c
      | _ => .ok c
    n.driveGates signals c

/-- Adds a bulb for an output and wires it to what drives the signal. -/
def addOutput (n : Netlist) (name : String) (i : Nat) (c : Circuit) :
    Except NetlistError Circuit := do
  let driver ← n.resolve name
  let (source, c) := sourceOf driver c
  let position : Point := ⟨columnAt (n.signals.length / 10 + 1), rowAt i⟩
  let (id, c) := c.add (((Component.sink .bulb position).withId (outputId name)).withLabel name)
  match c.connect source id 0 with
  | .error reason => .error (.refused reason)
  | .ok (_, c) => return c

/-- Adds bulbs for outputs, from the `i`-th row on. -/
def addOutputs (n : Netlist) : List String → (i : Nat) → Circuit → Except NetlistError Circuit
  | [], _, c => .ok c
  | name :: names, i, c => do
    let c ← n.addOutput name i c
    n.addOutputs names (i + 1) c

/-- The circuit of a netlist. -/
def toCircuit (n : Netlist) : Except NetlistError Circuit := do
  let c := n.addGates (n.addInputs .empty)
  let c ← n.driveGates n.signals c
  n.addOutputs n.outputs 0 c

end Netlist

/-- The circuit of a netlist, given the bytes of its text. -/
def Circuit.ofNetlist (s : List UInt8) : Except NetlistError Circuit := do
  let text ← NetlistText.ofBytes s
  let netlist ← Netlist.ofText text
  netlist.toCircuit

end LogicCircuit
