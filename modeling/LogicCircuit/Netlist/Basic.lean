import LogicCircuit.Circuit.Edit
import LogicCircuit.Text.Capitals

/-!
# Netlists

A netlist declares input and output signals and says for each other signal which operation on
which signals drives it. A buffer only passes on another signal; `Netlist.resolve` follows buffers
to what really drives a signal.
-/

namespace LogicCircuit

/-- What is wrong with a line of a netlist. -/
inductive NetlistFault where
  /-- A line without an equals sign is no declaration. -/
  | notDeclaration (line : String)
  /-- The keyword of a declaration is not known. -/
  | unknownKeyword (word : String)
  /-- A statement lacks a signal or an operation. -/
  | incomplete (line : String)
  /-- An operation has the wrong number of arguments. -/
  | wrongArity (op : String) (arity given : Nat)
  deriving DecidableEq, Repr

/-- The wording of a fault. -/
def NetlistFault.message : NetlistFault → String
  | notDeclaration line => s!"Expected INPUT(name) or OUTPUT(name), got {line}"
  | unknownKeyword word => s!"Unknown keyword {word}"
  | incomplete line => s!"Incomplete statement {line}"
  | wrongArity op arity given => s!"{op} expects {arity} inputs, got {given}"

/-- Why a netlist cannot be read or written. -/
inductive NetlistError where
  /-- A line is not UTF-8. -/
  | notText
  /-- A line is at fault; lines count from 1. -/
  | faulty (line : Nat) (fault : NetlistFault)
  /-- There is no such operation. -/
  | unsupportedGate (op : String)
  /-- There is no such operation on so many signals. -/
  | tooManyInputs (op : String) (given : Nat)
  /-- A signal is used but nothing drives it. -/
  | undefined (name : String)
  /-- A signal is driven twice. -/
  | redefined (name : String)
  /-- A wire was refused. -/
  | refused (reason : WiringError)
  deriving DecidableEq, Repr

/-- The wording of a refusal. -/
def NetlistError.message : NetlistError → String
  | notText => "stream did not contain valid UTF-8"
  | faulty line fault => s!"Line {line}: {fault.message}"
  | unsupportedGate op => s!"Unsupported gate {op}"
  | tooManyInputs op given => s!"Unsupported gate {op} with {given} inputs"
  | undefined name => s!"Signal {name} is not defined"
  | redefined name => s!"Signal {name} is defined twice"
  | refused reason => reason.message

/-- What drives a signal in a statement. -/
inductive Operation where
  | gate (g : Gate)
  /-- Passes on its argument. -/
  | buffer
  | constant (on : Bool)
  deriving DecidableEq, Repr

namespace Operation

/-- The number of arguments. -/
def arity : Operation → Nat
  | gate g => g.arity
  | buffer => 1
  | constant _ => 0

/-- The operation of a name in capitals. -/
def ofName? (name : String) : Option Operation :=
  if name = "BUF" ∨ name = "BUFF" then some buffer
  else if name = "GND" ∨ name = "VSS" then some (constant false)
  else if name = "VDD" then some (constant true)
  else (Gate.ofName? name).map gate

end Operation

/-- A statement as it is written. -/
structure Statement where
  /-- The number of its line. -/
  line : Nat
  /-- The signal. -/
  name : String
  /-- The name of the operation. -/
  op : String
  /-- The arguments. -/
  args : List String
  deriving DecidableEq, Repr

/-- A signal with what drives it. -/
structure Signal where
  /-- The signal. -/
  name : String
  /-- The operation. -/
  operation : Operation
  /-- The arguments, as many as the operation has. -/
  args : List String
  deriving DecidableEq, Repr

/-- The signal of a statement. -/
def Statement.signal (s : Statement) : Except NetlistError Signal :=
  let op := Text.allCapitals s.op
  match Operation.ofName? op with
  | none => .error (.unsupportedGate s.op)
  | some operation =>
    if s.args.length = operation.arity then .ok ⟨s.name, operation, s.args⟩
    else
      match operation with
      | .gate g =>
        if g.arity < s.args.length then .error (.tooManyInputs op s.args.length)
        else .error (.faulty s.line (.wrongArity op g.arity s.args.length))
      | _ => .error (.faulty s.line (.wrongArity op operation.arity s.args.length))

/-- A netlist. -/
structure Netlist where
  /-- The input signals. -/
  inputs : List String
  /-- The output signals. -/
  outputs : List String
  /-- The other signals with what drives them. -/
  signals : List Signal
  deriving DecidableEq, Repr

/-- What really drives a signal. -/
inductive Driver where
  /-- The input of this name. -/
  | input (name : String)
  /-- The gate of this signal. -/
  | gate (name : String)
  | constant (on : Bool)
  deriving DecidableEq, Repr

namespace Netlist

/-- The first name that is in a list twice, in the order of the second occurrences. -/
def repeated? (seen : List String) : List String → Option String
  | [] => none
  | name :: names => if name ∈ seen then some name else repeated? (name :: seen) names

/-- The signal that a statement drives. -/
def signal? (n : Netlist) (name : String) : Option Signal := n.signals.find? (·.name == name)

/-- The constant that a name stands for where nothing else drives it. -/
def defaultConstant? (name : String) : Option Bool :=
  if name = "gnd" then some false else if name = "vdd" then some true else none

/-- What really drives a signal, found within so many steps: buffers are followed, and a ring of
buffers drives nothing. `asked` is the signal that the search started from. -/
def resolveWithin (n : Netlist) (asked : String) :
    (steps : Nat) → String → Except NetlistError Driver
  | 0, _ => .error (.undefined asked)
  | steps + 1, name =>
    if name ∈ n.inputs then .ok (.input name)
    else
      match n.signal? name with
      | some ⟨_, .gate _, _⟩ => .ok (.gate name)
      | some ⟨_, .constant on, _⟩ => .ok (.constant on)
      | some ⟨_, .buffer, args⟩ => n.resolveWithin asked steps (args.headD "")
      | none =>
        match defaultConstant? name with
        | some on => .ok (.constant on)
        | none => .error (.undefined name)

/-- What really drives a signal. There are fewer buffers in a row than steps. -/
def resolve (n : Netlist) (name : String) : Except NetlistError Driver :=
  n.resolveWithin name (n.signals.length + 1) name

end Netlist

end LogicCircuit
