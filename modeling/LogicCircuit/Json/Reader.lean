import LogicCircuit.Json.Basic
import LogicCircuit.Json.Numeral

/-!
# Reading JSON

A JSON text is read from its bytes in two steps. `Lexeme.ofBytes?` cuts it into lexemes;
`ReadState.run?` reads them one by one with a stack of the arrays and objects that are open, so
the depth of nesting does not matter. Any fault in the syntax gives `none`. A string that is no
text is a lexeme all the same: only those who need the text object to it.
-/

namespace LogicCircuit.Json

/-- A lexeme of a JSON text. -/
inductive Lexeme where
  | openBracket
  | closeBracket
  | openBrace
  | closeBrace
  | comma
  | colon
  /-- A word or a number. -/
  | atom (v : Json)
  /-- A string. -/
  | string (s : Option String)

namespace Lexeme

/-- The byte of an ASCII character. -/
def byte (c : Char) : UInt8 := c.toUInt8

/-- The blanks between lexemes. -/
def isBlank (b : UInt8) : Bool :=
  b == byte ' ' || b == byte '\n' || b == byte '\t' || b == byte '\r'

/-- The lexeme that is a byte of its own. -/
def ofMark? (b : UInt8) : Option Lexeme :=
  if b = byte '[' then some openBracket
  else if b = byte ']' then some closeBracket
  else if b = byte '\x7b' then some openBrace
  else if b = byte '\x7d' then some closeBrace
  else if b = byte ',' then some comma
  else if b = byte ':' then some colon
  else none

/-- The bytes between the quotes of a string, given those behind the first quote, and the bytes
behind the last quote. A control character cannot stand in a string. -/
def splitString : List UInt8 → Option (List UInt8 × List UInt8)
  | [] => none
  | b :: bs =>
    if b = byte '"' then some ([], bs)
    else if b < 32 then none
    else if b = byte '\\' then
      -- the byte behind a backslash never ends the string
      match bs with
      | [] => none
      | e :: bs => (splitString bs).map fun r => (b :: e :: r.1, r.2)
    else (splitString bs).map fun r => (b :: r.1, r.2)

theorem length_splitString {s raw rest : List UInt8} (h : splitString s = some (raw, rest)) :
    rest.length < s.length := by
  fun_induction splitString s generalizing raw with
  | case1 | case3 | case4 => cases h
  | case2 => cases h; simp
  | case5 _ _ _ _ ih | case6 _ _ _ _ _ ih =>
    obtain ⟨r, hr, he⟩ := Option.map_eq_some_iff.1 h
    cases he
    have := ih hr
    simp only [List.length_cons]
    omega

/-- The value of a hexadecimal digit. -/
def hexValue? (b : UInt8) : Option Nat :=
  let c := Char.ofNat b.toNat
  if c.isDigit then some (c.toNat - '0'.toNat)
  else if 'a' ≤ c ∧ c ≤ 'f' then some (c.toNat - 'a'.toNat + 10)
  else if 'A' ≤ c ∧ c ≤ 'F' then some (c.toNat - 'A'.toNat + 10)
  else none

/-- The value of four hexadecimal digits. -/
def hexWord? (a b c d : UInt8) : Option Nat := do
  return (((← hexValue? a) * 16 + (← hexValue? b)) * 16 + (← hexValue? c)) * 16 + (← hexValue? d)

/-- The byte of an escape of one letter. -/
def escaped? (e : UInt8) : Option UInt8 :=
  if e = byte '"' ∨ e = byte '\\' ∨ e = byte '/' then some e
  else if e = byte 'b' then some 8
  else if e = byte 'f' then some 12
  else if e = byte 'n' then some 10
  else if e = byte 'r' then some 13
  else if e = byte 't' then some 9
  else none

/-- A piece of a string: a byte, or a code unit of an escape. -/
inductive Piece where
  | byte (b : UInt8)
  | unit (n : Nat)

/-- The pieces of a string, unless an escape is malformed. -/
def pieces? : List UInt8 → Option (List Piece)
  | [] => some []
  | [b] => if b = byte '\\' then none else some [.byte b]
  | b :: e :: bs =>
    if b ≠ byte '\\' then (pieces? (e :: bs)).map (.byte b :: ·)
    else if e = byte 'u' then
      match bs with
      | h₁ :: h₂ :: h₃ :: h₄ :: bs => do
        let n ← hexWord? h₁ h₂ h₃ h₄
        (pieces? bs).map (.unit n :: ·)
      | _ => none
    else do
      let x ← escaped? e
      (pieces? bs).map (.byte x :: ·)
termination_by s => s.length

/-- Whether a code unit is the first half of a surrogate pair. -/
def isHigh (n : Nat) : Bool := 0xD800 ≤ n && n < 0xDC00

/-- Whether a code unit is the second half of a surrogate pair. -/
def isLow (n : Nat) : Bool := 0xDC00 ≤ n && n < 0xE000

/-- The bytes of a character in UTF-8. -/
def encode (n : Nat) : List UInt8 := String.utf8EncodeChar (Char.ofNat n)

/-- The bytes of a string, unless a half of a surrogate pair stands alone. -/
def assemble? : List Piece → Option (List UInt8)
  | [] => some []
  | .byte b :: ps => (assemble? ps).map (b :: ·)
  | .unit n :: .unit m :: ps =>
    -- two halves make one character; only adjacent escapes can be halves
    if isHigh n then
      if isLow m then
        (assemble? ps).map (encode (0x10000 + (n - 0xD800) * 0x400 + (m - 0xDC00)) ++ ·)
      else none
    else if isLow n then none
    else (assemble? (.unit m :: ps)).map (encode n ++ ·)
  | .unit n :: ps =>
    if isHigh n || isLow n then none else (assemble? ps).map (encode n ++ ·)

/-- The text of the bytes, if they are UTF-8. -/
def textOf? (bytes : List UInt8) : Option String := String.fromUTF8? ⟨bytes.toArray⟩

/-- The string between quotes, unless an escape is malformed. -/
def ofRaw? (raw : List UInt8) : Option Lexeme :=
  (pieces? raw).map fun ps => string ((assemble? ps).bind textOf?)

/-- The bytes that words and numbers are made of. -/
def isAtomic (b : UInt8) : Bool :=
  let c := Char.ofNat b.toNat
  c.isAlphanum || c == '+' || c == '-' || c == '.'

/-- The value of a word or a number. -/
def atomOf? (s : List Char) : Option Json :=
  if s = "null".toList then some .null
  else if s = "true".toList then some (.bool true)
  else if s = "false".toList then some (.bool false)
  else (Numeral.ofChars? s).map fun _ => .number (String.ofList s)

/-- The lexemes of a text behind those that have been found, which are listed from the last to the
first. -/
def scan? (found : List Lexeme) : List UInt8 → Option (List Lexeme)
  | [] => some found.reverse
  | b :: bs =>
    if isBlank b then scan? found bs
    else if b = byte '"' then
      match _split : splitString bs with
      | none => none
      | some (raw, rest) =>
        match ofRaw? raw with
        | none => none
        | some l => scan? (l :: found) rest
    else if isAtomic b then
      match atomOf? ((b :: bs.takeWhile isAtomic).map fun b => Char.ofNat b.toNat) with
      | none => none
      | some v => scan? (.atom v :: found) (bs.dropWhile isAtomic)
    else
      match ofMark? b with
      | none => none
      | some l => scan? (l :: found) bs
termination_by s => s.length
decreasing_by
  · exact Nat.lt_succ_self _
  · exact Nat.lt_succ_of_lt (length_splitString _split)
  · exact Nat.lt_succ_of_le (List.dropWhile_suffix _).length_le
  · exact Nat.lt_succ_self _

/-- The lexemes of a text. -/
def ofBytes? (s : List UInt8) : Option (List Lexeme) := scan? [] s

end Lexeme

/-- An array or object that is open, with what it holds so far, the last first. -/
inductive Open where
  | array (items : List Json)
  | object (fields : List (Option String × Json)) (name : Option String)

/-- Where the reader stands; the lists hold what is open, the innermost first. -/
inductive ReadState where
  /-- A value is expected. -/
  | value (outer : List Open)
  /-- The first item of an array or its end is expected. -/
  | firstItem (outer : List Open)
  /-- The first name of an object or its end is expected. -/
  | firstName (outer : List Open)
  /-- A name is expected. -/
  | name (fields : List (Option String × Json)) (outer : List Open)
  /-- A colon is expected. -/
  | colon (fields : List (Option String × Json)) (name : Option String) (outer : List Open)
  /-- A value is complete. -/
  | done (v : Json) (outer : List Open)

namespace ReadState

/-- The state after the first lexeme of a value. -/
def begin? (outer : List Open) : Lexeme → Option ReadState
  | .openBracket => some (firstItem outer)
  | .openBrace => some (firstName outer)
  | .atom v => some (done v outer)
  | .string s => some (done (.text s) outer)
  | _ => none

/-- The state after one more lexeme. -/
def step? : ReadState → Lexeme → Option ReadState
  | value outer, l => begin? outer l
  | firstItem outer, .closeBracket => some (done (.array []) outer)
  | firstItem outer, l => begin? (.array [] :: outer) l
  | firstName outer, .closeBrace => some (done (.object []) outer)
  | firstName outer, .string s => some (colon [] s outer)
  | name fields outer, .string s => some (colon fields s outer)
  | colon fields s outer, .colon => some (value (.object fields s :: outer))
  | done v (.array items :: outer), .comma => some (value (.array (v :: items) :: outer))
  | done v (.array items :: outer), .closeBracket =>
    some (done (.array (v :: items).reverse) outer)
  | done v (.object fields s :: outer), .comma => some (name ((s, v) :: fields) outer)
  | done v (.object fields s :: outer), .closeBrace =>
    some (done (.object ((s, v) :: fields).reverse) outer)
  | _, _ => none

/-- The value that has been read when the text ends here. -/
def finish? : ReadState → Option Json
  | done v [] => some v
  | _ => none

/-- Reads all remaining lexemes. -/
def run? : ReadState → List Lexeme → Option Json
  | s, [] => s.finish?
  | s, l :: ls =>
    match s.step? l with
    | none => none
    | some s => s.run? ls

end ReadState

/-- The value that a text spells, given its bytes. -/
def ofBytes? (s : List UInt8) : Option Json := (Lexeme.ofBytes? s).bind (ReadState.value []).run?

end LogicCircuit.Json
