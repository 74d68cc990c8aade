import LogicCircuit.Table.Basic

/-!
# Tables as comma-separated values

A record of names, then a record for each row: the inputs, an empty field, the outputs. A name is
quoted where it holds a comma, a quote or a line feed, and a quote inside it is written twice.
-/

namespace LogicCircuit.Csv

/-- A text with every quote written twice. -/
def doubleQuotes : List Char → List Char
  | [] => []
  | c :: cs => if c = '"' then '"' :: '"' :: doubleQuotes cs else c :: doubleQuotes cs

/-- Whether a field has to be quoted. -/
def needsQuotes (s : List Char) : Bool := s.any fun c => c == ',' || c == '"' || c == '\n'

/-- A field as it is written. -/
def field (s : String) : String :=
  if needsQuotes s.toList then "\"" ++ String.ofList (doubleQuotes s.toList) ++ "\"" else s

/-- A record of input fields, an empty field and output fields. -/
def record (inputs outputs : List String) : String :=
  ",".intercalate inputs ++ ",," ++ ",".intercalate outputs ++ "\n"

end LogicCircuit.Csv

namespace LogicCircuit

/-- A table as comma-separated values. -/
def TruthTable.csv (t : TruthTable) : String :=
  Csv.record (t.inputs.map Csv.field) (t.outputs.map Csv.field) ++
    String.join (t.rows.map fun r => Csv.record (r.inputs.map Text.bit) (r.outputs.map Text.bit))

end LogicCircuit
