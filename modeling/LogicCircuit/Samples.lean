import LogicCircuit.Circuit.Edit

/-!
# Sample circuits

Adders, a chain and a ring of inverters, and one gate of each kind. They are built step by step
with the same operations that callers have, so a step may refuse; none of these does.
-/

namespace LogicCircuit.Samples

/-- Why a sample circuit cannot be built. -/
inductive SampleError where
  /-- There is no sample of this length. -/
  | badLength (n : Nat)
  /-- A wire was refused. -/
  | refused (reason : WiringError)
  deriving DecidableEq, Repr

/-- A step in building a circuit. -/
abbrev Step := StateT Circuit (Except SampleError)

/-- Adds a component; gives its name. -/
def put (x : Component) : Step ComponentId := fun c => .ok (c.add x)

/-- Turns the answer to a connection into a step. -/
def settle : Except WiringError (WireId × Circuit) → Except SampleError (Unit × Circuit)
  | .ok (_, c) => .ok ((), c)
  | .error reason => .error (.refused reason)

/-- Connects an output to a slot. -/
def drive (source target : ComponentId) (slot : Nat) : Step Unit := fun c =>
  settle (c.connect source target slot)

/-- The place in a column and a row; column 0 is the first that holds gates. -/
def place (column row : Nat) : Point :=
  ⟨200 + 150 * Float.ofNat column, 100 + 80 * Float.ofNat row⟩

/-- Adds a switch. -/
def switch (name : String) (row : Nat) : Step ComponentId :=
  put (((Component.source .switch ⟨50, 100 + 80 * Float.ofNat row⟩).withId
    ("input-" ++ name)).withLabel name)

/-- Adds a bulb that shows an output. -/
def bulb (name : String) (column row : Nat) (source : ComponentId) : Step Unit := do
  let id ← put
    (((Component.sink .bulb (place column row)).withId ("output-" ++ name)).withLabel name)
  drive source id 0

/-- Connects outputs to the slots of a component, from some slot on. -/
def driveAll (target : ComponentId) : List ComponentId → (slot : Nat) → Step Unit
  | [], _ => pure ()
  | a :: inputs, slot => do
    drive a target slot
    driveAll target inputs (slot + 1)

/-- Adds a gate on some inputs; gives its name. -/
def gate (g : Gate) (inputs : List ComponentId) (column row : Nat) : Step ComponentId := do
  let id ← put (.gate g (place column row))
  driveAll id inputs 0
  return id

/-- The circuit that some steps build. -/
def built (steps : Step Unit) : Except SampleError Circuit := (steps.run .empty).map (·.2)

/-- The sum and the carry of two bits. -/
def halfAdder : Except SampleError Circuit := built do
  let a ← switch "A" 0
  let b ← switch "B" 1
  let s ← gate .xor [a, b] 0 0
  let c ← gate .and [a, b] 0 1
  let sum ← put (((Component.sink .bulb (place 1 0)).withId "output-Sum").withLabel "Sum")
  let carry ← put (((Component.sink .bulb (place 1 1)).withId "output-Carry").withLabel "Carry")
  drive s sum 0
  drive c carry 0

/-- The sum and the carry of three bits. -/
def fullAdder : Except SampleError Circuit := built do
  let a ← switch "A" 0
  let b ← switch "B" 1
  let cin ← switch "Cin" 2
  let p ← gate .xor [a, b] 0 0
  let g ← gate .and [a, b] 0 1
  let s ← gate .xor [p, cin] 1 0
  let t ← gate .and [p, cin] 1 1
  let c ← gate .or [g, t] 2 1
  let sum ← put (((Component.sink .bulb (place 3 0)).withId "output-Sum").withLabel "Sum")
  let cout ← put (((Component.sink .bulb (place 3 1)).withId "output-Cout").withLabel "Cout")
  drive s sum 0
  drive c cout 0

/-- The gates that add two bits and a carry, if there is one; gives the sum and the new carry. -/
def addBits (i : Nat) (a b : ComponentId) (carry : Option ComponentId) :
    Step (ComponentId × ComponentId) := do
  let p ← gate .xor [a, b] (3 * i) (2 * i)
  let g ← gate .and [a, b] (3 * i) (2 * i + 1)
  match carry with
  | none => return (p, g)
  | some c =>
    let s ← gate .xor [p, c] (3 * i + 1) (2 * i)
    let t ← gate .and [p, c] (3 * i + 1) (2 * i + 1)
    let c ← gate .or [g, t] (3 * i + 2) (2 * i + 1)
    return (s, c)

/-- The stages of an adder of `len` bits from stage `i` on, `todo` of them; gives the last carry.
-/
def stages (len : Nat) : (todo i : Nat) → (carry : Option ComponentId) → Step (Option ComponentId)
  | 0, _, carry => return carry
  | todo + 1, i, carry => do
    let a ← switch s!"A{i}" (2 * i)
    let b ← switch s!"B{i}" (2 * i + 1)
    let (s, c) ← addBits i a b carry
    bulb s!"S{i}" (3 * len) (2 * i) s
    stages len todo (i + 1) (some c)

/-- An adder of two numbers of `len` bits, whose carries run from the lowest bit to the highest.
-/
def rippleCarry (len : Nat) : Except SampleError Circuit :=
  if len = 0 then .error (.badLength len)
  else
    built do
      match ← stages len len 0 none with
      | some c => bulb "Cout" (3 * len) (2 * len) c
      | none => pure ()

/-- Adds inverters one after the other, from column `i` on; gives the last of them. -/
def inverters : (todo i : Nat) → ComponentId → Step ComponentId
  | 0, _, x => return x
  | todo + 1, i, x => do
    let x ← gate .not [x] i 0
    inverters todo (i + 1) x

/-- A chain of inverters between a switch and a bulb. -/
def notChain (len : Nat) : Except SampleError Circuit := built do
  let a ← switch "A" 0
  let x ← inverters len 0 a
  bulb "Output" len 0 x

/-- A ring of an odd number of inverters, which a probe observes. The wire that closes it is
forced. -/
def ringOscillator (len : Nat) : Except SampleError Circuit :=
  if len < 3 ∨ len % 2 = 0 then .error (.badLength len)
  else
    built do
      let first ← put (.gate .not ⟨200, 100⟩)
      let last ← inverters (len - 1) 1 first
      fun c => settle (c.force last first 0)
      let position : Point := ⟨200 + 150 * Float.ofNat len, 200⟩
      let probe ← put
        (((Component.sink (.probe []) position).withId "output-probe").withLabel "Probe")
      drive last probe 0

/-- Adds some gates on two inputs, each with a bulb that bears its name, from row `i` on. -/
def zooFrom (a b : ComponentId) : List Gate → (i : Nat) → Step Unit
  | [], _ => pure ()
  | g :: gates, i => do
    let x ← gate g ([a, b].take g.arity) 0 i
    bulb g.name 1 i x
    zooFrom a b gates (i + 1)

/-- One gate of each kind on two switches. -/
def gateZoo : Except SampleError Circuit := built do
  let a ← switch "A" 0
  let b ← switch "B" 1
  zooFrom a b Gate.all 0

end LogicCircuit.Samples
