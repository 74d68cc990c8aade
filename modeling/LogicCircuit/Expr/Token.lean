import LogicCircuit.Expr.Basic
import LogicCircuit.Text.Blank

/-!
# Tokens

The tokens of the expression language and the scanner that finds them. A word is a letter with the
letters and digits that follow it; it is the keyword of an operator or else the name of a
variable, in any case. Operators have symbols too. Letters and digits are those of ASCII.
-/

namespace LogicCircuit

/-- A token of the expression language. -/
inductive Token where
  | var (name : String)
  | const (on : Bool)
  | operator (op : BinaryOp)
  | not
  | opening
  | closing
  deriving DecidableEq, Repr

namespace Token

/-- The text of a token: a name in capitals, or the keyword of an operator. -/
def text : Token → String
  | var name => name
  | const on => if on then "1" else "0"
  | operator op => op.name
  | not => Gate.not.name
  | opening => "("
  | closing => ")"

/-- The tokens that are one character of their own. -/
def ofSymbol? : Char → Option Token
  | '(' => some opening
  | ')' => some closing
  | '·' | '∧' | '*' => some (operator .and)
  | '+' | '∨' => some (operator .or)
  | '\x27' | '¬' | '!' => some not
  | '⊕' => some (operator .xor)
  | '⊼' => some (operator .nand)
  | '⊽' => some (operator .nor)
  | '0' => some (const false)
  | '1' => some (const true)
  | _ => none

/-- The operators that have a keyword. -/
def keywords : List Token := not :: BinaryOp.all.map operator

/-- The token of a word: a keyword, or else a variable named by the word in capitals. -/
def ofWord (word : List Char) : Token :=
  let name := Text.capitals (String.ofList word)
  (keywords.find? fun t => t.text == name).getD (var name)

/-- A token and where it starts. -/
structure Placed where
  /-- The token. -/
  token : Token
  /-- The number of characters before it. -/
  position : Nat
  deriving DecidableEq, Repr

/-- A character that starts no token. -/
structure Stray where
  /-- The character. -/
  character : Char
  /-- The number of characters before it. -/
  position : Nat
  deriving DecidableEq, Repr

/-- The wording of a refusal to scan. -/
def Stray.message (s : Stray) : String :=
  s!"Invalid character in expression: {s.character} (position {s.position})"

/-- The tokens of a text that starts at some position. -/
def scan (position : Nat) : List Char → Except Stray (List Placed)
  | [] => .ok []
  | c :: cs =>
    if Text.isBlank c then scan (position + 1) cs
    else if c.isAlpha then
      let tail := cs.takeWhile Char.isAlphanum
      (scan (position + 1 + tail.length) (cs.dropWhile Char.isAlphanum)).map
        (⟨ofWord (c :: tail), position⟩ :: ·)
    else
      match ofSymbol? c with
      | some t => (scan (position + 1) cs).map (⟨t, position⟩ :: ·)
      | none => .error ⟨c, position⟩
termination_by cs => cs.length
decreasing_by
  · exact Nat.lt_succ_self _
  · exact Nat.lt_succ_of_le (List.dropWhile_suffix _).length_le
  · exact Nat.lt_succ_self _

/-- The tokens of a text. -/
def ofText (s : String) : Except Stray (List Placed) := scan 0 s.toList

end Token

end LogicCircuit
