import LogicCircuit.Decimal.Layout

/-!
# JSON values

A JSON value and its printed form. A number keeps its digits as they are written, because what
they mean depends on who asks. A string is `none` if what is written is no text: half of a
surrogate pair, or bytes that are not UTF-8.
-/

namespace LogicCircuit

/-- A JSON value. -/
inductive Json where
  | null
  | bool (on : Bool)
  | number (digits : String)
  | text (s : Option String)
  | array (items : List Json)
  | object (fields : List (Option String × Json))
  deriving Repr

namespace Json

/-- A string value. -/
def ofText (s : String) : Json := text (some s)

/-- A whole number. -/
def ofNat (n : Nat) : Json := number (toString n)

/-- Floating point numbers have an exponent from 1e16 up and below 1e-5; whole ones end in a zero.
-/
def floatLayout : Decimal.Layout := ⟨fun power => -5 ≤ power && power < 16, ".0"⟩

/-- A floating point number; infinities and what is not a number become null. -/
def ofFloat (x : Float) : Json :=
  match Number.parts? x with
  | some p => number (floatLayout.signed p)
  | none => null

/-- An object of named fields, without those that are absent. -/
def record (fields : List (String × Option Json)) : Json :=
  object (fields.filterMap fun f => f.2.map fun v => (some f.1, v))

/-- A hexadecimal digit. -/
def hexDigit (n : Nat) : Char := (Nat.digitChar n)

/-- A character inside a string: quotes, backslashes and control characters are escaped. -/
def escape (c : Char) : List Char :=
  if c = '"' then ['\\', '"']
  else if c = '\\' then ['\\', '\\']
  else if c = '\n' then ['\\', 'n']
  else if c = '\r' then ['\\', 'r']
  else if c = '\t' then ['\\', 't']
  else if c = '\x08' then ['\\', 'b']
  else if c = '\x0c' then ['\\', 'f']
  else if c.toNat < 32 then
    ['\\', 'u', '0', '0', hexDigit (c.toNat / 16), hexDigit (c.toNat % 16)]
  else [c]

/-- A string as it is written. -/
def quoted (s : String) : String := "\"" ++ String.ofList (s.toList.flatMap escape) ++ "\""

/-- The blanks at the start of a line, two for each level. -/
def indent (level : Nat) : String := String.ofList (List.replicate (2 * level) ' ')

/-- Items between brackets, each on a line of its own. -/
def bracketed (opening closing : String) (level : Nat) (items : List String) : String :=
  if items.isEmpty then opening ++ closing
  else
    opening ++ "\n" ++ ",\n".intercalate (items.map (indent (level + 1) ++ ·)) ++ "\n" ++
      indent level ++ closing

mutual
/-- The text of a value that starts on a line of some level. -/
def prettyAt (level : Nat) : Json → String
  | null => "null"
  | bool on => if on then "true" else "false"
  | number digits => digits
  | text s => quoted (s.getD "")
  | array items => bracketed "[" "]" level (prettyItems (level + 1) items)
  | object fields => bracketed "\x7b" "\x7d" level (prettyFields (level + 1) fields)

/-- The texts of the items of an array. -/
def prettyItems (level : Nat) : List Json → List String
  | [] => []
  | v :: items => prettyAt level v :: prettyItems level items

/-- The texts of the fields of an object. -/
def prettyFields (level : Nat) : List (Option String × Json) → List String
  | [] => []
  | (name, v) :: fields =>
    (quoted (name.getD "") ++ ": " ++ prettyAt level v) :: prettyFields level fields
end

/-- The text of a value on several lines. -/
def pretty (v : Json) : String := prettyAt 0 v

end Json

end LogicCircuit
