import LogicCircuit.Text.Letters

/-!
# Capitals beyond ASCII

A few characters outside ASCII have ASCII letters as their capitals in the Unicode standard: the
dotless i, the long s and ligatures. No other character has.
-/

namespace LogicCircuit.Text

/-- The characters outside ASCII whose capitals are ASCII letters. -/
def lettersBeyond : List (Nat × String) :=
  [(0xDF, "SS"), (0x131, "I"), (0x17F, "S"), (0xFB00, "FF"), (0xFB01, "FI"), (0xFB02, "FL"),
    (0xFB03, "FFI"), (0xFB04, "FFL"), (0xFB05, "ST"), (0xFB06, "ST")]

/-- The capitals of a character, as far as they are ASCII letters; any other character stays. -/
def capitalsOf (c : Char) : List Char :=
  match lettersBeyond.lookup c.toNat with
  | some s => s.toList
  | none => [c.toUpper]

/-- A text in capitals, as far as they are ASCII letters. -/
def allCapitals (s : String) : String := String.ofList (s.toList.flatMap capitalsOf)

end LogicCircuit.Text
