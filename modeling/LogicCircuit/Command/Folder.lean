import LogicCircuit.Command.Run

/-!
# Command lines in a folder

A folder of named files without folders in it, and what a command line does there.
-/

namespace LogicCircuit.Command

/-- A file in a folder. -/
structure File where
  /-- Its name. -/
  name : String
  /-- Its bytes. -/
  bytes : List UInt8
  deriving DecidableEq, Repr

/-- A folder. -/
abbrev Folder := List File

namespace Folder

/-- The name of the file that a path leads to, if it stays in the folder. -/
def nameAt? (path : String) : Option String :=
  match (Text.pieces (· == '/') path.toList).filter (· != ['.']) with
  | [name] => if name.isEmpty then none else some (String.ofList name)
  | _ => none

/-- The bytes of the file at a path. -/
def read? (f : Folder) (path : String) : Option (List UInt8) :=
  (nameAt? path).bind fun name => (f.find? (·.name == name)).map (·.bytes)

/-- The folder with a file written. -/
def write (f : Folder) (name text : String) : Folder :=
  ⟨name, text.toUTF8.toList⟩ :: f.filter (·.name != name)

/-- What a command line does in a folder, and the folder afterwards. -/
def run (f : Folder) (args : List String) : Outcome × Folder :=
  let outcome := Command.run f.read? args
  match outcome.file with
  | none => (outcome, f)
  | some (path, text) =>
    match nameAt? path with
    | some name => (outcome, f.write name text)
    | none => (outcome.unwritable, f)

end Folder

end LogicCircuit.Command
