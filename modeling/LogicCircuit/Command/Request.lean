import LogicCircuit.Command.Arguments
import LogicCircuit.Simulation.Simulator

/-!
# Requests

What a command line asks for. `rules` declares the commands and their options, and
`Request.ofArguments?` reads the words of a command line by them.
-/

namespace LogicCircuit.Command

/-- Where a truth table comes from. -/
inductive TableSource where
  | file (path : String)
  | expression (text : String)
  deriving DecidableEq, Repr

/-- What a command line asks for. -/
inductive Request where
  /-- The analysis of a circuit. -/
  | summarize (file : String) (strict json : Bool)
  /-- A truth table. -/
  | tabulate (source : TableSource) (csv : Option String) (terms karnaugh : Bool)
  /-- The circuit of an expression, in a file. -/
  | synthesize (text output : String)
  /-- A simplified expression. -/
  | simplify (text : String)
  /-- The expressions of the sinks of a circuit. -/
  | extract (file : String) (simplified : Bool)
  /-- Whether two circuits or expressions are equivalent. -/
  | compare (first second : String) (expressions : Bool)
  /-- What the sinks of a circuit show after some ticks. -/
  | simulate (file : String) (ticks : Nat) (settings : Settings) (strict : Bool)
  /-- A circuit in another format. -/
  | convert (file output : String) (strict : Bool)
  /-- The version, under the name of a command. -/
  | version (name : String)
  /-- Help. -/
  | help
  deriving DecidableEq, Repr

/-- The option for strict loading. -/
def strictOption : OptionRule := ⟨"strict", none, none⟩

/-- The option for an output file. -/
def outputOption : OptionRule := ⟨"output", some 'o', some .path⟩

/-- The commands. -/
def rules : List Rule :=
  [⟨"show", none, [.path], 1, [strictOption, ⟨"json", none, none⟩]⟩,
    ⟨"table", none, [.path], 0,
      [⟨"expression", some 'e', some .text⟩, ⟨"csv", none, some .path⟩, ⟨"terms", none, none⟩,
        ⟨"karnaugh", none, none⟩]⟩,
    ⟨"parse", none, [.text], 1, [outputOption]⟩,
    ⟨"simplify", none, [.text], 1, []⟩,
    ⟨"expr", none, [.path], 1, [⟨"simplify", some 's', none⟩]⟩,
    ⟨"check-equivalence", some "equiv", [.text, .text], 2, [⟨"expressions", some 'e', none⟩]⟩,
    ⟨"simulate", some "sim", [.path], 1,
      [⟨"ticks", some 'n', some .count⟩, ⟨"interval", none, some .number⟩,
        ⟨"oscillation-window", none, some .count⟩, ⟨"oscillation-threshold", none, some .count⟩,
        ⟨"no-oscillation-check", none, none⟩, strictOption]⟩,
    ⟨"export", none, [.path], 1, [outputOption, strictOption]⟩]

namespace Sorted

/-- Whether an option was given. -/
def has (a : Sorted) (name : String) : Bool := name ∈ a.flags

/-- The value of an option. -/
def value? (a : Sorted) (name : String) : Option String := a.values.lookup name

/-- The value of an option that is a whole number, or else a default. -/
def countOr (a : Sorted) (name : String) (default : Nat) : Nat :=
  ((a.value? name).bind Number.word?).getD default

/-- The value of an option that is a floating point number, or else a default. -/
def numberOr (a : Sorted) (name : String) (default : Float) : Float :=
  ((a.value? name).bind Number.float?).getD default

end Sorted

namespace Request

/-- The settings of a simulation. -/
def settingsOf (a : Sorted) : Settings where
  window := a.countOr "oscillation-window" Settings.standard.window
  threshold := a.countOr "oscillation-threshold" Settings.standard.threshold
  detect := !a.has "no-oscillation-check"
  interval := a.numberOr "interval" Settings.standard.interval

/-- The request of a command with sorted arguments, unless an argument is missing or does not go
with another. -/
def ofSorted? (name : String) (a : Sorted) : Option Request :=
  match name, a.plain with
  | "show", [file] => some (summarize file (a.has "strict") (a.has "json"))
  | "table", files =>
    let request (source : TableSource) :=
      some (tabulate source (a.value? "csv") (a.has "terms") (a.has "karnaugh"))
    match files, a.value? "expression" with
    | [], some text => request (.expression text)
    | [file], none => request (.file file)
    | _, _ => none
  | "parse", [text] => (a.value? "output").map (synthesize text)
  | "simplify", [text] => some (simplify text)
  | "expr", [file] => some (extract file (a.has "simplify"))
  | "check-equivalence", [first, second] => some (compare first second (a.has "expressions"))
  | "simulate", [file] =>
    some (simulate file (a.countOr "ticks" 100) (settingsOf a) (a.has "strict"))
  | "export", [file] => (a.value? "output").map fun output => convert file output (a.has "strict")
  | _, _ => none

/-- The name of the program. -/
def programName : String := "boolsim"

/-- The request of a command with its words; `none` stands for misuse. -/
def ofCommand? (rule : Rule) (words : List String) : Option Request :=
  match sort rule words with
  | .ok a => ofSorted? rule.name a
  | .error .misuse => none
  | .error .help => some help
  | .error .version => some (version (programName ++ "-" ++ rule.name))

/-- What stands in front of a command: options alone. -/
def frontRule : Rule := ⟨programName, none, [], 0, []⟩

/-- The command of a name. -/
def rule? (name : String) : Option Rule :=
  rules.find? fun r => r.name == name || r.otherName == some name

/-- The request of the words of a command line; `none` stands for misuse. -/
def ofArguments? : List String → Option Request
  | [] => none
  | word :: words =>
    if looksLikeOption word then
      match sort frontRule [word] with
      | .ok _ => if word = "--" then none else ofArguments? words
      | .error .misuse => none
      | .error .help => some help
      | .error .version => some (version programName)
    else if word = "help" then
      match words with
      | [] => some help
      | [name] => (rule? name).map fun _ => help
      | _ => none
    else
      match rule? word with
      | some rule => ofCommand? rule words
      | none => none

/-- The files that a request reads. -/
def files : Request → List String
  | summarize file _ _ | extract file _ | simulate file _ _ _ | convert file _ _
  | tabulate (.file file) _ _ _ => [file]
  | compare first second false => [first, second]
  | _ => []

end Request

end LogicCircuit.Command
