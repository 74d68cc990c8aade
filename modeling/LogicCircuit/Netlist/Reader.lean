import LogicCircuit.Netlist.Basic
import LogicCircuit.Text.Blank
import LogicCircuit.Text.Pieces

/-!
# Reading netlists

One declaration or statement a line; blank lines and lines that start with a hash sign are passed
over. The parts of a line stand between its marks; empty parts do not count. The first line at
fault is the one that is reported.
-/

namespace LogicCircuit

/-- What the lines of a netlist say. -/
structure NetlistText where
  /-- The input signals. -/
  inputs : List String
  /-- The output signals. -/
  outputs : List String
  /-- The statements. -/
  statements : List Statement
  deriving DecidableEq, Repr

/-- A line of a netlist that says something. -/
inductive NetlistLine where
  | input (name : String)
  | output (name : String)
  | statement (s : Statement)
  deriving DecidableEq, Repr

namespace NetlistLine

/-- The parts of a line between marks, without blanks around them. -/
def parts (marks : List Char) (s : List Char) : List String :=
  (((Text.pieces (· ∈ marks) s).map Text.trim).filter fun p => !p.isEmpty).map String.ofList

/-- A declaration, given the line without blanks around it. -/
def declaration (number : Nat) (s : List Char) : Except NetlistError NetlistLine :=
  match parts ['(', ')'] s with
  | [word, name] =>
    if word = "INPUT" ∨ word = "PINPUT" then .ok (input name)
    else if word = "OUTPUT" ∨ word = "POUTPUT" then .ok (output name)
    else .error (.faulty number (.unknownKeyword word))
  | _ => .error (.faulty number (.notDeclaration (String.ofList s)))

/-- A statement, given the line without blanks around it. -/
def statementOf (number : Nat) (s : List Char) : Except NetlistError NetlistLine :=
  match parts ['=', '(', ',', ')'] s with
  | name :: op :: args => .ok (statement ⟨number, name, op, args⟩)
  | _ => .error (.faulty number (.incomplete (String.ofList s)))

/-- What a line says, if it says anything. -/
def ofChars? (number : Nat) (s : List Char) : Except NetlistError (Option NetlistLine) :=
  let s := Text.trim s
  if s.isEmpty ∨ s.head? = some '#' then .ok none
  else if '=' ∈ s then (statementOf number s).map some
  else (declaration number s).map some

/-- What the lines from some number on say. -/
def ofLines (number : Nat) : List (List Char) → Except NetlistError (List NetlistLine)
  | [] => .ok []
  | line :: lines => do
    let first ← ofChars? number line
    let rest ← ofLines (number + 1) lines
    return first.toList ++ rest

end NetlistLine

namespace NetlistText

/-- What some lines say. -/
def ofLines (lines : List NetlistLine) : NetlistText where
  inputs := lines.filterMap fun
    | .input name => some name
    | _ => none
  outputs := lines.filterMap fun
    | .output name => some name
    | _ => none
  statements := lines.filterMap fun
    | .statement s => some s
    | _ => none

/-- What a netlist says. -/
def ofString (s : String) : Except NetlistError NetlistText :=
  (NetlistLine.ofLines 1 (Text.pieces (· == '\n') s.toList)).map ofLines

/-- The text of bytes that are UTF-8. -/
def decode? (s : List UInt8) : Option String := String.fromUTF8? ⟨s.toArray⟩

/-- What a netlist says, given its bytes. If they are no text, the lines in front of the first
that is none are read all the same, because a fault in one of them is reported first. -/
def ofBytes (s : List UInt8) : Except NetlistError NetlistText :=
  match decode? s with
  | some text => ofString text
  | none =>
    let lines := ((Text.pieces (· == 10) s).map decode?).takeWhile (·.isSome)
    match NetlistLine.ofLines 1 (lines.map fun line => (line.getD "").toList) with
    | .ok _ => .error .notText
    | .error e => .error e

end NetlistText

/-- The netlist that a text says: every statement is an operation on as many signals as it needs,
and no signal is driven twice. -/
def Netlist.ofText (t : NetlistText) : Except NetlistError Netlist := do
  let signals ← t.statements.mapM Statement.signal
  match Netlist.repeated? [] (t.inputs ++ signals.map (·.name)) with
  | some name => .error (.redefined name)
  | none => return ⟨t.inputs, t.outputs, signals⟩

end LogicCircuit
