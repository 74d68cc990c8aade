/-!
# Columns of text

Text moved to the right end of a column.
-/

namespace LogicCircuit.Text

/-- The text with blanks in front of it, so that it has at least so many characters. -/
def alignRight (width : Nat) (s : String) : String :=
  String.ofList (List.replicate (width - s.length) ' ') ++ s

/-- A bit as a digit. -/
def bit (on : Bool) : String := if on then "1" else "0"

/-- A bit at the right end of a column under a heading. The column is as wide as the heading is
long in UTF-8, so headings outside ASCII get wider columns than they need. -/
def bitUnder (heading : String) (on : Bool) : String := alignRight heading.utf8ByteSize (bit on)

end LogicCircuit.Text
