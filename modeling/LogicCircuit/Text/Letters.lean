/-!
# Letters

Capitals of the 26 ASCII letters, and names that are compared without regard to them. Other
characters have no case here: names of gates and variables are made of ASCII letters and digits.
-/

namespace LogicCircuit.Text

/-- The text with every ASCII letter as a capital. -/
def capitals (s : String) : String := String.ofList (s.toList.map Char.toUpper)

/-- Whether two texts differ at most in the case of ASCII letters. -/
def sameLetters (a b : String) : Bool := capitals a == capitals b

end LogicCircuit.Text
