import LogicCircuit.Number.Reading
import LogicCircuit.Text.Pieces

/-!
# Command line arguments

The words of a command line are sorted into options and plain arguments by the declaration of a
command. The sorting stands for that of a package which reads arguments, and these rules are what
is assumed of it. A long option has its value behind an equals sign or in the next word, a short
one also in the same word; a value in a word of its own may not look like an option. Two dashes
end the options. An option may be given once, except the one that asks for more logging. The first
word at fault, or the first that asks for help or the version, decides.
-/

namespace LogicCircuit.Command

/-- The form of an argument. -/
inductive Form where
  /-- Any text. -/
  | text
  /-- The name of a file, which is not empty. -/
  | path
  /-- A whole number. -/
  | count
  /-- A floating point number. -/
  | number
  deriving DecidableEq, Repr

/-- Whether a text has a form. -/
def Form.accepts : Form → String → Bool
  | text, _ => true
  | path, s => s != ""
  | count, s => (Number.word? s).isSome
  | number, s => (Number.float? s).isSome

/-- The declaration of an option. -/
structure OptionRule where
  /-- Its long name. -/
  name : String
  /-- Its short name. -/
  letter : Option Char
  /-- The form of its value, if it has one. -/
  value : Option Form
  deriving DecidableEq, Repr

/-- The declaration of a command. -/
structure Rule where
  /-- Its name. -/
  name : String
  /-- Another name. -/
  otherName : Option String
  /-- The forms of its plain arguments. -/
  plain : List Form
  /-- How many plain arguments it needs. -/
  needed : Nat
  /-- Its options. -/
  options : List OptionRule
  deriving DecidableEq, Repr

/-- The options of every command. -/
def commonOptions : List OptionRule :=
  [⟨"verbose", some 'v', none⟩, ⟨"version", some 'V', none⟩, ⟨"help", some 'h', none⟩]

/-- The arguments of a command, sorted. -/
structure Sorted where
  /-- The options without a value that were given. -/
  flags : List String
  /-- The options with a value that were given. -/
  values : List (String × String)
  /-- The plain arguments. -/
  plain : List String
  deriving DecidableEq, Repr

/-- Why arguments are not sorted to the end. -/
inductive Stop where
  /-- The arguments are at fault. -/
  | misuse
  /-- Help is asked for. -/
  | help
  /-- The version is asked for. -/
  | version
  deriving DecidableEq, Repr

namespace Sorted

/-- No arguments. -/
def empty : Sorted := ⟨[], [], []⟩

/-- Adds an option without a value. -/
def addFlag (a : Sorted) (rule : OptionRule) : Except Stop Sorted :=
  if rule.name = "verbose" then .ok a
  else if rule.name = "version" then .error .version
  else if rule.name = "help" then .error .help
  else if rule.name ∈ a.flags then .error .misuse
  else .ok { a with flags := a.flags ++ [rule.name] }

/-- Adds an option with its value. -/
def addValue (a : Sorted) (rule : OptionRule) (form : Form) (value : String) :
    Except Stop Sorted :=
  if (a.values.lookup rule.name).isSome || !form.accepts value then .error .misuse
  else .ok { a with values := a.values ++ [(rule.name, value)] }

/-- Adds a plain argument. -/
def addPlain (a : Sorted) (rule : Rule) (value : String) : Except Stop Sorted :=
  match rule.plain[a.plain.length]? with
  | some form =>
    if form.accepts value then .ok { a with plain := a.plain ++ [value] } else .error .misuse
  | none => .error .misuse

end Sorted

/-- What the sorting of one word leaves: the arguments so far, or an option that waits for its
value. -/
inductive Pending where
  | nothing (a : Sorted)
  | value (a : Sorted) (rule : OptionRule) (form : Form)

/-- Sorts the letters of a word behind its dash. -/
def sortLetters (options : List OptionRule) : List Char → Sorted → Except Stop Pending
  | [], a => .ok (.nothing a)
  | c :: cs, a =>
    match options.find? (·.letter == some c) with
    | none => .error .misuse
    | some rule =>
      match rule.value, cs with
      | none, _ => (a.addFlag rule).bind (sortLetters options cs)
      | some form, [] => .ok (.value a rule form)
      | some form, '=' :: cs => (a.addValue rule form (String.ofList cs)).map .nothing
      | some form, cs => (a.addValue rule form (String.ofList cs)).map .nothing

/-- Sorts a word behind its two dashes. -/
def sortLong (options : List OptionRule) (word : List Char) (a : Sorted) : Except Stop Pending :=
  let (name, value) := Text.splitAt (· = '=') word
  match options.find? (·.name == String.ofList name) with
  | none => .error .misuse
  | some rule =>
    match rule.value, value with
    | none, none => (a.addFlag rule).map .nothing
    | none, some _ => .error .misuse
    | some form, none => .ok (.value a rule form)
    | some form, some value => (a.addValue rule form (String.ofList value)).map .nothing

/-- Whether a word looks like an option. -/
def looksLikeOption (word : String) : Bool :=
  match word.toList with
  | '-' :: _ :: _ => true
  | _ => false

/-- Sorts the words behind two dashes. -/
def sortPlain (rule : Rule) : List String → Sorted → Except Stop Sorted
  | [], a => .ok a
  | word :: words, a => (a.addPlain rule word).bind (sortPlain rule words)

/-- Sorts words. -/
def sortWords (rule : Rule) : List String → Pending → Except Stop Sorted
  | [], .nothing a => .ok a
  | [], .value _ _ _ => .error .misuse
  | word :: words, .value a option form =>
    if looksLikeOption word then .error .misuse
    else (a.addValue option form word).bind fun a => sortWords rule words (.nothing a)
  | word :: words, .nothing a =>
    match word.toList with
    | ['-', '-'] => sortPlain rule words a
    | '-' :: '-' :: cs =>
      (sortLong (rule.options ++ commonOptions) cs a).bind (sortWords rule words)
    | '-' :: c :: cs =>
      (sortLetters (rule.options ++ commonOptions) (c :: cs) a).bind (sortWords rule words)
    | _ => (a.addPlain rule word).bind fun a => sortWords rule words (.nothing a)

/-- The arguments of a command, sorted; it may lack none that it needs. -/
def sort (rule : Rule) (words : List String) : Except Stop Sorted :=
  (sortWords rule words (.nothing .empty)).bind fun a =>
    if a.plain.length < rule.needed then .error .misuse else .ok a

end LogicCircuit.Command
