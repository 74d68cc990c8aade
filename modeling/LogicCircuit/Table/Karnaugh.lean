import LogicCircuit.Table.Basic

/-!
# Karnaugh maps

The first output of a table over two or three inputs as a map: one line for each value of the
first input, one column for each setting of the others. Neighbouring columns differ in one bit.
-/

namespace LogicCircuit

/-- A Karnaugh map. -/
structure KarnaughMap where
  /-- The first input. -/
  rowVariable : String
  /-- The other inputs. -/
  columnVariables : List String
  /-- The cells, by line and column. -/
  cells : List (List Bool)
  deriving DecidableEq, Repr

namespace KarnaughMap

/-- The settings of the columns over one or two inputs, each next to those that differ in one bit.
-/
def columns : Nat → List (List Bool)
  | 1 => [[false], [true]]
  | 2 => [[false, false], [false, true], [true, true], [true, false]]
  | _ => []

/-- The heading of a column. -/
def heading (bits : List Bool) : String := String.join (bits.map Text.bit)

/-- The text of a map: a line of names and headings, then a numbered line for each value of the
first input. -/
def text (k : KarnaughMap) : String :=
  let headings := (columns k.columnVariables.length).map heading
  let names := k.rowVariable ++ "\\" ++ String.join k.columnVariables
  let line (cells : List Bool) (i : Nat) :=
    Text.alignRight names.utf8ByteSize (toString i) ++
      String.join (List.zipWith (fun cell h => "  " ++ Text.bitUnder h cell) cells headings) ++
      "\n"
  names ++ "  " ++ "  ".intercalate headings ++ "\n" ++
    String.join (k.cells.zipIdx.map fun (cells, i) => line cells i)

end KarnaughMap

namespace TruthTable

/-- The first output on the last row with these input bits; false if there is none. -/
def firstOutputAt (t : TruthTable) (inputs : List Bool) : Bool :=
  match (t.rows.filter (·.inputs == inputs)).getLast? with
  | some r => r.outputs.headD false
  | none => false

/-- The Karnaugh map of the first output, for two or three inputs. -/
def karnaugh? (t : TruthTable) : Option KarnaughMap :=
  match t.inputs, t.outputs with
  | first :: rest, _ :: _ =>
    if rest.length = 1 ∨ rest.length = 2 then
      let cells (b : Bool) :=
        (KarnaughMap.columns rest.length).map fun bits => t.firstOutputAt (b :: bits)
      some ⟨first, rest, [cells false, cells true]⟩
    else none
  | _, _ => none

end TruthTable

end LogicCircuit
