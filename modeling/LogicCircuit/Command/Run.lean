import LogicCircuit.Command.Request
import LogicCircuit.Document.Reader
import LogicCircuit.Document.Writer
import LogicCircuit.Expr.Simplify
import LogicCircuit.Netlist.Circuit
import LogicCircuit.Netlist.Writer
import LogicCircuit.Report
import LogicCircuit.Synthesis
import LogicCircuit.Table.Comparison
import LogicCircuit.Table.Csv
import LogicCircuit.Table.Karnaugh
import LogicCircuit.Table.Terms
import LogicCircuit.Text.Lower
import LogicCircuit.Text.Pieces

/-!
# Running requests

What a request prints, the file that it writes and how it ends, as a function of the files that it
reads. A file is written at the end, after everything has been printed.
-/

namespace LogicCircuit.Command

/-- Why a request fails. -/
inductive Failure where
  /-- A file cannot be opened. -/
  | noFile
  /-- The name of a file has no extension. -/
  | noExtension (path : String)
  /-- There is no format with this extension. -/
  | unknownExtension (ext : String)
  /-- A text is no expression. -/
  | parse (e : ParseError)
  /-- A text from which a circuit is to be made is no expression. -/
  | expression (e : ParseError)
  /-- A wire was refused. -/
  | wiring (e : WiringError)
  | document (e : DocumentError)
  | netlist (e : NetlistError)
  /-- A circuit has no truth table. -/
  | noTable
  /-- One of two circuits has no truth table. -/
  | noTableOf (path : String)
  deriving DecidableEq, Repr

/-- The wording of a failure. -/
def Failure.message : Failure → String
  | noFile => "No such file or directory (os error 2)"
  | noExtension path => s!"No extension given for {path}"
  | unknownExtension ext => s!"Unknown extension {ext}"
  | parse e => e.message
  | expression e => s!"Invalid expression: {e.message}"
  | wiring e => e.message
  | document e => e.message
  | netlist e => e.message
  | noTable => "The circuit needs at least one input and one output"
  | noTableOf path => s!"{path} needs at least one input and one output"

/-- What a request does. -/
structure Outcome where
  /-- What it prints. -/
  printed : String
  /-- The exit code. -/
  code : Nat
  /-- Why it fails, if there is more to say than the exit code. -/
  failure : Option Failure
  /-- The file that it writes, with its text. -/
  file : Option (String × String)
  deriving DecidableEq, Repr

namespace Outcome

/-- Success. -/
def success (printed : String) : Outcome := ⟨printed, 0, none, none⟩

/-- Failure for a reason. -/
def failed (printed : String) (reason : Failure) : Outcome := ⟨printed, 1, some reason, none⟩

/-- What is done instead where the file cannot be written. -/
def unwritable (o : Outcome) : Outcome := failed o.printed .noFile

end Outcome

/-- The last part of the name of a file, unless it is a directory above. -/
def fileName? (path : String) : Option (List Char) :=
  let parts := (Text.pieces (· == '/') path.toList).filter fun p => p != [] && p != ['.']
  match parts.getLast? with
  | some p => if p = ['.', '.'] then none else some p
  | none => none

/-- What stands behind the last point of a file name, unless the point is at its start. -/
def extension? (path : String) : Option String := do
  let name ← fileName? path
  match Text.pieces (· == '.') name with
  | [] | [_] => none
  | [[], _] => none
  | first :: second :: rest =>
    return Text.lower (String.ofList ((second :: rest).getLast?.getD first))

/-- The extension of the name of a file in small letters. -/
def extension (path : String) : Except Failure String :=
  match extension? path with
  | some ext => .ok ext
  | none => .error (.noExtension path)

/-- The circuit in a file, with the number of wires that were skipped. -/
def readCircuit (read : String → Option (List UInt8)) (path : String) (strict : Bool) :
    Except Failure (Nat × Circuit) := do
  let ext ← extension path
  match read path with
  | none => .error .noFile
  | some bytes =>
    if ext = "json" then
      match Document.load bytes strict with
      | .ok (report, c) => return (report.length, c)
      | .error e => .error (.document e)
    else if ext = "bench" then
      match Circuit.ofNetlist bytes with
      | .ok c => return (0, c)
      | .error e => .error (.netlist e)
    else .error (.unknownExtension ext)

/-- The line about skipped wires. -/
def skippedLine (path : String) (skipped : Nat) : String :=
  if skipped = 0 then "" else s!"Skipped {skipped} connections while loading {path}\n"

/-- What is done with the circuit in a file; what is printed first tells of skipped wires. -/
def withCircuit (read : String → Option (List UInt8)) (path : String) (strict : Bool)
    (act : (printed : String) → Circuit → Outcome) : Outcome :=
  match readCircuit read path strict with
  | .ok (skipped, c) => act (skippedLine path skipped) c
  | .error reason => .failed "" reason

/-- Writes a circuit to a file in the format of its extension. A netlist that cannot be written to
the end leaves its beginning in the file. -/
def writeCircuit (printed path : String) (c : Circuit) : Outcome :=
  match extension path with
  | .error reason => .failed printed reason
  | .ok ext =>
    if ext = "json" then ⟨printed, 0, none, some (path, c.toDocumentText ++ "\n")⟩
    else if ext = "bench" then
      match Netlist.write c with
      | (text, none) => ⟨printed, 0, none, some (path, text)⟩
      | (text, some e) => ⟨printed, 1, some (.netlist e), some (path, text)⟩
    else .failed printed (.unknownExtension ext)

/-- The lines about the terms of a table. -/
def termLines (t : TruthTable) : String :=
  String.join (t.minterms.map fun x =>
      "Minterms of " ++ x.output ++ ": " ++ x.joined .or ++ "\n") ++
    String.join (t.maxterms.map fun x =>
      "Maxterms of " ++ x.output ++ ": " ++ x.joined .and ++ "\n")

/-- The Karnaugh map of a table, or why there is none. -/
def karnaughText (t : TruthTable) : String :=
  match t.karnaugh? with
  | some k => k.text
  | none => "Karnaugh maps are only available for 2 or 3 inputs\n"

/-- Prints a table and what else is asked for. -/
def showTable (printed : String) (csv : Option String) (terms karnaugh : Bool) (t : TruthTable) :
    Outcome where
  printed := printed ++ t.text ++ (if terms then termLines t else "") ++
    (if karnaugh then karnaughText t else "")
  code := 0
  failure := none
  file := csv.map (·, t.csv)

/-- The line about an extracted expression. -/
def exprLine (simplified : Bool) : String × Option Expr → String
  | (name, some e) =>
    let shown := if simplified then e.simplify else e
    s!"{name} = {shown.text}\n"
  | (name, none) => s!"{name} is not fully connected\n"

/-- Prints whether two tables are equivalent; if they are not, the exit code says so too. -/
def showComparison (printed : String) (a b : TruthTable) : Outcome :=
  if a.inputs ≠ b.inputs then
    let first := ", ".intercalate a.inputs
    let second := ", ".intercalate b.inputs
    ⟨printed ++ s!"Different inputs: {first} vs {second}. Circuits are not equivalent\n",
      1, none, none⟩
  else
    match a.difference? b with
    | none => .success (printed ++ "Circuits are equivalent\n")
    | some pattern =>
      let line (name : String) (on : Bool) := "  " ++ name ++ ": " ++ Text.bit on ++ "\n"
      let lines := String.join (List.zipWith line a.inputs pattern)
      let test := if pattern.isEmpty then "" else "Test pattern:\n" ++ lines
      ⟨printed ++ "Circuits are not equivalent\n" ++ test, 1, none, none⟩

/-- The table that one side of a comparison stands for, and what is printed on the way. -/
def tableOf (read : String → Option (List UInt8)) (expressions : Bool) (arg : String) :
    String × Except Failure TruthTable :=
  if expressions then
    match Expr.parse arg with
    | .ok e => ("", .ok (.ofExpr e e.variableNames))
    | .error e => ("", .error (.parse e))
  else
    match readCircuit read arg false with
    | .error reason => ("", .error reason)
    | .ok (skipped, c) =>
      (skippedLine arg skipped,
        match c.tabulate.1 with
        | some t => .ok t
        | none => .error (.noTableOf arg))

/-- What a request does, given the files that it reads. -/
def Request.run (read : String → Option (List UInt8)) : Request → Outcome
  | summarize file strict json =>
    withCircuit read file strict fun printed c =>
      .success (printed ++ (if json then c.analyze.toJson.pretty else c.analyze.text) ++ "\n")
  | tabulate (.expression text) csv terms karnaugh =>
    match Expr.parse text with
    | .ok e => showTable "" csv terms karnaugh (.ofExpr e e.variableNames)
    | .error e => .failed "" (.parse e)
  | tabulate (.file file) csv terms karnaugh =>
    withCircuit read file false fun printed c =>
      match c.tabulate.1 with
      | some t => showTable printed csv terms karnaugh t
      | none => .failed printed .noTable
  | synthesize text output =>
    match Expr.parse text with
    | .error e => .failed "" (.expression e)
    | .ok e =>
      match Circuit.ofExpr e with
      | .ok c => writeCircuit "" output c
      | .error reason => .failed "" (.wiring reason)
  | simplify text =>
    match Expr.simplifyText text with
    | .ok simplified => .success (simplified ++ "\n")
    | .error e => .failed "" (.parse e)
  | extract file simplified =>
    withCircuit read file false fun printed c =>
      .success (printed ++ String.join (c.sinkExprs.map (exprLine simplified)))
  | compare first second expressions =>
    match tableOf read expressions first with
    | (printed, .error reason) => .failed printed reason
    | (printed, .ok a) =>
      match tableOf read expressions second with
      | (more, .error reason) => .failed (printed ++ more) reason
      | (more, .ok b) => showComparison (printed ++ more) a b
  | simulate file ticks settings strict =>
    withCircuit read file strict fun printed c =>
      let times := tickTimes ticks settings.interval
      let (_, _, c) := (Simulator.ofSettings settings).ticks times c
      .success
        (printed ++ String.join (c.sinks.map fun x => s!"{x.displayName} = {x.value.text}\n"))
  | convert file output strict =>
    withCircuit read file strict fun printed c => writeCircuit printed output c
  | version name => .success (name ++ " 0.1.0\n")
  | help => .success ""

/-- What a command line does, given the files that it reads. Misuse has an exit code of its own.
-/
def run (read : String → Option (List UInt8)) (args : List String) : Outcome :=
  match Request.ofArguments? args with
  | some request => request.run read
  | none => ⟨"", 2, none, none⟩

end LogicCircuit.Command
