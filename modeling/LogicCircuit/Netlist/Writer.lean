import LogicCircuit.Netlist.Basic
import LogicCircuit.Text.Blank

/-!
# Writing netlists

Sources are written as inputs, except that constants are `vdd` and `gnd`. Each slot of a sink
becomes an output, and an empty slot reads `gnd`. Two signals may not have the same name; a clash
is found in the middle of writing, and what has been written by then stays.
-/

namespace LogicCircuit

namespace Netlist

/-- Whether a character would end a name in a netlist. -/
def breaksName (c : Char) : Bool := Text.isBlank c || c ∈ ['=', '(', ')', ',', '#']

/-- A name as a signal: characters that would end it become underscores. -/
def signalName (name : String) : String :=
  String.ofList (name.toList.map fun c => if breaksName c then '_' else c)

/-- The signal of a component: a constant without a label has a name of its own, a source is named
as it is displayed, anything else by its name. -/
def signalOf (x : Component) : String :=
  match x.kind with
  | .source ⟨.high, _⟩ => (x.label.map signalName).getD "vdd"
  | .source ⟨.low, _⟩ => (x.label.map signalName).getD "gnd"
  | .source _ => signalName x.displayName
  | _ => signalName x.id

/-- Whether a component takes its signal for itself; constants without a label share theirs. -/
def claimsSignal (x : Component) : Bool :=
  x.kind.isGate || x.label.isSome || !(signalOf x == "vdd" || signalOf x == "gnd")

/-- The signals that components take for themselves, by component. -/
def claimed (c : Circuit) : List String := (c.components.entries.filter claimsSignal).map signalOf

/-- The signal of a driver. -/
def driverSignal (c : Circuit) (driver : Option ComponentId) : String :=
  ((driver.bind c.component?).map signalOf).getD "gnd"

/-- The outputs of a sink, one for each slot, with the signals that drive them. -/
def outputsOf (c : Circuit) (x : Component) : List (String × String) :=
  (c.driversOf x.id).zipIdx.map fun (driver, slot) =>
    let base := signalName x.displayName
    (if 1 < x.arity then s!"{base}_{slot}" else base, driverSignal c driver)

/-- The outputs of all sinks. -/
def allOutputs (c : Circuit) : List (String × String) := c.sinks.flatMap (outputsOf c)

/-- The text up to the inputs. -/
def headerText (c : Circuit) : String :=
  "# .bench (ISCAS) file\n# Generated by boolsim\n" ++
    String.join ((c.sources.filter fun x => !x.kind.source?.any (·.kind.isConstant)).map fun x =>
      "INPUT(" ++ signalOf x ++ ")\n") ++ "\n"

/-- The statement of a constant with a label. -/
def constantText (x : Component) : String :=
  match x.kind, x.label with
  | .source ⟨.high, _⟩, some _ => signalOf x ++ " = vdd\n"
  | .source ⟨.low, _⟩, some _ => signalOf x ++ " = gnd\n"
  | _, _ => ""

/-- The statement of a gate. -/
def gateText (c : Circuit) (x : Component) : String :=
  let args := ", ".intercalate ((c.driversOf x.id).map (driverSignal c))
  signalOf x ++ " = " ++ x.kind.subtype ++ "(" ++ args ++ ")\n"

/-- The text from the outputs on. -/
def bodyText (c : Circuit) : String :=
  String.join ((allOutputs c).map fun o => s!"OUTPUT({o.1})\n") ++ "\n" ++
    String.join (c.sources.map constantText) ++ String.join (c.gates.map (gateText c)) ++
    String.join ((allOutputs c).map fun o => s!"{o.1} = BUF({o.2})\n")

/-- The text of a circuit as a netlist, as far as it is written, and the name that two signals
have. -/
def write (c : Circuit) : String × Option NetlistError :=
  match repeated? [] (claimed c) with
  | some name => ("", some (.redefined name))
  | none =>
    -- outputs are named after the inputs have been written
    match repeated? (claimed c) ((allOutputs c).map (·.1)) with
    | some name => (headerText c, some (.redefined name))
    | none => (headerText c ++ bodyText c, none)

end Netlist

/-- The text of a circuit as a netlist. -/
def Circuit.toNetlist (c : Circuit) : Except NetlistError String :=
  match Netlist.write c with
  | (_, some e) => .error e
  | (text, none) => .ok text

end LogicCircuit
