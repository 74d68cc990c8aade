import LogicCircuit.Expr.Parser

/-!
# Truth columns

The values of an expression over a list of variables, in two numberings. A row counts with the
first variable as its highest bit; a mask counts with the first variable as its lowest. Names are
compared without regard to the case of letters, the first that fits is taken, and a variable that
is not listed is false.

The program keeps the numbers of rows and masks in words of 64 bits, so it has these columns and
tables for fewer than 64 variables. The definitions and what is proved of them go on for longer
lists.

`Packed` stands for the packed tables of a package. What is assumed of the package is what is
written down here: a table over `n` variables is the list of its `2 ^ n` bits, the function that
is variable `i` has bit `i` of each mask, the operators act bit by bit, and two tables are equal
if their bits are. The theorems use this through the facts about `Packed.bits` alone.
-/

namespace LogicCircuit

/-- The bits of a row number, the highest first. The program has rows for `n < 64`. -/
def assignment (row n : Nat) : List Bool := (List.range n).map fun j => row.testBit (n - j - 1)

namespace Expr

/-- The place of a name in a list of variables. -/
def column? (names : List String) (name : String) : Option Nat :=
  names.findIdx? fun v => Text.sameLetters v name

/-- The value of a variable on a row. -/
def rowValue (names : List String) (row : Nat) (name : String) : Bool :=
  match column? names name with
  | some j => row.testBit (names.length - j - 1)
  | none => false

/-- The values of an expression on all rows, of which the program numbers those of fewer than 64
variables. -/
def truthColumn (e : Expr) (names : List String) : List Bool :=
  (List.range (1 <<< names.length)).map fun row => e.eval (rowValue names row)

end Expr

/-- The table of a boolean function, one bit for each mask of its variables. -/
structure Packed where
  /-- The values, by mask. -/
  bits : List Bool
  deriving DecidableEq, Repr

namespace Packed

/-- A function of `n` variables that is constant; in the program `n < 64`. -/
def ofConst (n : Nat) (on : Bool) : Packed := ⟨List.replicate (1 <<< n) on⟩

/-- The function of `n` variables that is its variable `i`; in the program `n < 64`. -/
def ofVariable (n i : Nat) : Packed := ⟨(List.range (1 <<< n)).map (·.testBit i)⟩

/-- The function that is false where the given one is true. -/
def complement (p : Packed) : Packed := ⟨p.bits.map (!·)⟩

/-- The function that is true where both are. -/
def both (p q : Packed) : Packed := ⟨List.zipWith (· && ·) p.bits q.bits⟩

/-- The function that is true where at least one is. -/
def either (p q : Packed) : Packed := ⟨List.zipWith (· || ·) p.bits q.bits⟩

/-- The function that is true where exactly one is. -/
def differ (p q : Packed) : Packed := ⟨List.zipWith (· ^^ ·) p.bits q.bits⟩

/-- Two functions joined by an operator. -/
def combine : BinaryOp → Packed → Packed → Packed
  | .and, p, q => p.both q
  | .or, p, q => p.either q
  | .xor, p, q => p.differ q
  | .nand, p, q => (p.both q).complement
  | .nor, p, q => (p.either q).complement

end Packed

namespace Expr

/-- The packed table of an expression over a list of variables. -/
def packed (names : List String) : Expr → Packed
  | var name =>
    match column? names name with
    | some i => .ofVariable names.length i
    | none => .ofConst names.length false
  | const on => .ofConst names.length on
  | not e => (e.packed names).complement
  | binary op a b => .combine op (a.packed names) (b.packed names)

/-- Whether two expressions have the same packed table over the variables of both. -/
def equivalent (a b : Expr) : Bool :=
  let names : Roster fun name : String => name := Roster.ofList (a.occurrences ++ b.occurrences)
  a.packed names.entries = b.packed names.entries

/-- Whether two texts spell equivalent expressions; the first text is parsed first. -/
def textsEquivalent (a b : String) : Except ParseError Bool :=
  match parse a, parse b with
  | .error e, _ => .error e
  | .ok _, .error e => .error e
  | .ok a, .ok b => .ok (a.equivalent b)

end Expr

end LogicCircuit
