import LogicCircuit.Command.Run

/-!
# The program

Reads the files that a command line names, prints what `Command.run` says and writes the file that
it gives.
-/

namespace LogicCircuit

/-- The bytes of those of some files that can be read. -/
def readFiles (paths : List String) : IO (List (String × List UInt8)) :=
  paths.foldlM (fun found (path : String) => do
    try
      let bytes ← IO.FS.readBinFile path
      return (path, bytes.toList) :: found
    catch _ => return found) []

/-- Writes the file of an outcome, and gives what is done in the end. -/
def writeFile (o : Command.Outcome) : IO Command.Outcome := do
  match o.file with
  | none => return o
  | some (path, text) =>
    try
      IO.FS.writeFile path text
      return o
    catch _ => return o.unwritable

end LogicCircuit

open LogicCircuit in
/-- The command line program. -/
def main (args : List String) : IO UInt32 := do
  let files ← readFiles (((Command.Request.ofArguments? args).map (·.files)).getD [])
  let outcome := Command.run (fun path => files.lookup path) args
  IO.print outcome.printed
  let outcome ← writeFile outcome
  if let some reason := outcome.failure then IO.eprintln ("Error: " ++ reason.message)
  return outcome.code.toUInt32
