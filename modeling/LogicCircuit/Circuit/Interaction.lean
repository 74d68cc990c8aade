import LogicCircuit.Circuit.Basic

/-!
# Interaction

What people do to a circuit without changing its topology: they set switches, press buttons, stop
clocks, rename and move components. Each operation gives `none` where there is nothing of the
kind.
-/

namespace LogicCircuit.Circuit

/-- Changes one component by a function that keeps its name. -/
def modify (c : Circuit) (id : ComponentId) (change : Component → Component)
    (keeps : ∀ x, (change x).id = x.id) : Circuit :=
  { c with components := c.components.modify id change keeps }

/-- Changes the state of a source that satisfies a condition. -/
def modifySource? (c : Circuit) (id : ComponentId) (fits : Source → Bool)
    (change : Source → Source) : Option Circuit :=
  match (c.component? id).bind (·.kind.source?) with
  | some s =>
    if fits s then
      some (c.modify id (fun x => { x with kind := x.kind.mapSource change }) fun _ => rfl)
    else none
  | none => none

/-- Overwrites the level of any source. -/
def setLevel? (c : Circuit) (id : ComponentId) (level : Bool) : Option Circuit :=
  c.modifySource? id (fun _ => true) (·.setLevel level)

/-- Sets a switch. -/
def setSwitch? (c : Circuit) (id : ComponentId) (level : Bool) : Option Circuit :=
  c.modifySource? id (fun s => s.kind matches .switch) (·.setLevel level)

/-- Presses or releases a button. -/
def press? (c : Circuit) (id : ComponentId) (pressed : Bool) : Option Circuit :=
  c.modifySource? id (fun s => s.kind matches .button) (·.setLevel pressed)

/-- A switch flipped, or a clock stopped or started. -/
def flip (s : Source) : Source :=
  match s.kind with
  | .switch => s.setLevel !s.level
  | _ => s.mapClock fun c => { c with enabled := !c.enabled }

/-- Flips a switch, or stops or starts a clock. -/
def toggle? (c : Circuit) (id : ComponentId) : Option Circuit :=
  c.modifySource? id (fun s => s.kind matches .switch | .clock _) flip

/-- Changes the frequency of a clock, as far as its range allows. -/
def setFrequency? (c : Circuit) (id : ComponentId) (hz : Float) : Option Circuit :=
  c.modifySource? id (fun s => s.kind matches .clock _) (·.mapClock (·.setFrequency hz))

/-- Changes the label of a component. -/
def setLabel? (c : Circuit) (id : ComponentId) (label : Option String) : Option Circuit :=
  (c.component? id).map fun _ => c.modify id (fun x => { x with label }) fun _ => rfl

/-- Moves a component on the drawing plane. -/
def move? (c : Circuit) (id : ComponentId) (dx dy : Float) : Option Circuit :=
  (c.component? id).map fun _ =>
    c.modify id (fun x => { x with position := x.position.shifted dx dy }) fun _ => rfl

end LogicCircuit.Circuit
