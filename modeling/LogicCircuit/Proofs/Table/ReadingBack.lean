import LogicCircuit.Proofs.Table.Differences
import LogicCircuit.Proofs.Table.Numbering
import LogicCircuit.Table.Csv

/-!
# Tables read back

`Csv.read` is a reader of comma-separated values that knows nothing of tables: a record ends at a
line feed and a field at a comma outside quotes, and inside the quotes of a field two quotes stand
for one. A name that is written and then read comes out as it was, whatever characters it is made
of (`Csv.Reader.foldl_field`), because a comma, a quote or a line feed is only ever read inside
quotes. The main result `reading_csv` is the same for a whole table.
-/

namespace LogicCircuit

namespace Csv

/-- Where a reader is within a field. -/
inductive Place where
  /-- At its start. -/
  | start
  /-- Outside quotes. -/
  | plain
  /-- Inside quotes. -/
  | quoted
  /-- Behind a quote inside quotes, which ends them unless another one follows. -/
  | closing
  deriving DecidableEq, Repr

/-- What a reader has read so far. -/
structure Reader where
  /-- Where it is within a field. -/
  place : Place := .start
  /-- The characters of that field so far. -/
  text : List Char := []
  /-- The fields before it in the same record. -/
  fields : List String := []
  /-- The records before it. -/
  records : List (List String) := []

namespace Reader

/-- The field is complete. -/
def endField (r : Reader) : Reader :=
  { r with place := .start, text := [], fields := r.fields ++ [String.ofList r.text] }

/-- The field is complete, and so is the record. -/
def endRecord (r : Reader) : Reader :=
  { r.endField with fields := [], records := r.records ++ [r.endField.fields] }

/-- One more character belongs to the field. -/
def push (r : Reader) (place : Place) (ch : Char) : Reader :=
  { r with place, text := r.text ++ [ch] }

/-- Reads a character outside quotes. -/
def stepOutside (r : Reader) (ch : Char) : Reader :=
  if ch = ',' then r.endField else if ch = '\n' then r.endRecord else r.push .plain ch

/-- Reads a character. Only at the start of a field a quote opens quotes. -/
def step (r : Reader) (ch : Char) : Reader :=
  match r.place with
  | .start => if ch = '"' then { r with place := .quoted } else r.stepOutside ch
  | .plain => r.stepOutside ch
  | .quoted => if ch = '"' then { r with place := .closing } else r.push .quoted ch
  | .closing => if ch = '"' then r.push .quoted ch else r.stepOutside ch

/-- The records of a text that ends here. Behind the end of a record there is no further one. -/
def finish (r : Reader) : List (List String) :=
  if r.place = .start ∧ r.fields = [] then r.records else r.endRecord.records

end Reader

/-- The records of a text. -/
def read (text : String) : List (List String) := (text.toList.foldl Reader.step {}).finish

variable {cs : List Char} {ch : Char} {s : String} {names more : List String}

theorem needsQuotes_cons : needsQuotes (ch :: cs) = false ↔
    (ch ≠ ',' ∧ ch ≠ '"' ∧ ch ≠ '\n') ∧ needsQuotes cs = false := by
  simp [needsQuotes, and_assoc]

/-- An empty field is written as nothing. -/
theorem field_empty : field "" = "" := rfl

/-- A digit needs no quotes. -/
theorem field_bit (on : Bool) : field (Text.bit on) = Text.bit on := by
  cases on <;> decide

/-- A record is its fields with a comma between them, and a line feed. -/
theorem record_eq (hnames : names ≠ []) (hmore : more ≠ []) :
    record names more = ",".intercalate (names ++ "" :: more) ++ "\n" := by
  rw [record, String.intercalate_append_of_ne_nil hnames (List.cons_ne_nil _ _),
    String.intercalate_cons_of_ne_nil hmore]
  simp [String.append_assoc]
  rfl

namespace Reader

variable {place : Place} {text : List Char} {fields : List String} {records : List (List String)}

/-- Outside quotes a comma ends the field. -/
theorem step_comma (h : place ≠ .quoted) : step ⟨place, text, fields, records⟩ ',' =
    ⟨.start, [], fields ++ [String.ofList text], records⟩ := by
  cases place <;> first | rfl | exact absurd rfl h

/-- Outside quotes a line feed ends the record. -/
theorem step_lineFeed (h : place ≠ .quoted) : step ⟨place, text, fields, records⟩ '\n' =
    ⟨.start, [], [], records ++ [fields ++ [String.ofList text]]⟩ := by
  cases place <;> first | rfl | exact absurd rfl h

/-- Outside quotes a text without commas, quotes and line feeds is read as it is. -/
theorem foldl_plain (h : needsQuotes cs = false) (text : List Char) :
    cs.foldl step ⟨.plain, text, fields, records⟩ = ⟨.plain, text ++ cs, fields, records⟩ := by
  induction cs generalizing text with
  | nil => simp
  | cons ch cs ih =>
      obtain ⟨⟨hcomma, -, hline⟩, hcs⟩ := needsQuotes_cons.1 h
      have hstep : step ⟨.plain, text, fields, records⟩ ch =
          ⟨.plain, text ++ [ch], fields, records⟩ := by
        simp [step, stepOutside, push, hcomma, hline]
      rw [List.foldl_cons, hstep, ih hcs, List.append_assoc, List.singleton_append]

/-- Inside quotes a text with its quotes doubled is read as it is. -/
theorem foldl_doubleQuotes (cs text : List Char) :
    (doubleQuotes cs).foldl step ⟨.quoted, text, fields, records⟩ =
      ⟨.quoted, text ++ cs, fields, records⟩ := by
  induction cs generalizing text with
  | nil => simp [doubleQuotes]
  | cons ch cs ih =>
      have hrest := ih (text ++ [ch])
      rw [List.append_assoc, List.singleton_append] at hrest
      by_cases hquote : ch = '"'
      · subst hquote
        exact hrest
      · have hstep : step ⟨.quoted, text, fields, records⟩ ch =
            ⟨.quoted, text ++ [ch], fields, records⟩ := by
          simp [step, push, hquote]
        rw [doubleQuotes, if_neg hquote, List.foldl_cons, hstep, hrest]

/-- A text is read back from its field, and the reader is outside quotes then. -/
theorem foldl_field (s : String) (fields : List String) (records : List (List String)) :
    ∃ place, place ≠ .quoted ∧ (field s).toList.foldl step ⟨.start, [], fields, records⟩ =
      ⟨place, s.toList, fields, records⟩ := by
  unfold field
  split
  case isTrue =>
    refine ⟨.closing, by decide, ?_⟩
    have hopen : step ⟨.start, [], fields, records⟩ '"' = ⟨.quoted, [], fields, records⟩ := rfl
    have hclose : step ⟨.quoted, s.toList, fields, records⟩ '"' =
        ⟨.closing, s.toList, fields, records⟩ := rfl
    have htext : ("\"" ++ String.ofList (doubleQuotes s.toList) ++ "\"").toList =
        '"' :: (doubleQuotes s.toList ++ ['"']) := by simp
    rw [htext, List.foldl_cons, hopen, List.foldl_append, foldl_doubleQuotes, List.nil_append]
    exact hclose
  case isFalse hplain =>
    rw [Bool.not_eq_true] at hplain
    cases hs : s.toList with
    | nil => exact ⟨.start, by decide, rfl⟩
    | cons ch cs =>
        rw [hs] at hplain
        obtain ⟨⟨hcomma, hquote, hline⟩, hcs⟩ := needsQuotes_cons.1 hplain
        have hstep : step ⟨.start, [], fields, records⟩ ch = ⟨.plain, [ch], fields, records⟩ := by
          simp [step, stepOutside, push, hcomma, hquote, hline]
        refine ⟨.plain, by decide, ?_⟩
        rw [List.foldl_cons, hstep, foldl_plain hcs, List.singleton_append]

/-- Texts are read back from a line of their fields. -/
theorem foldl_line (hnames : names ≠ []) (fields : List String) (records : List (List String)) :
    (",".intercalate (names.map field) ++ "\n").toList.foldl step ⟨.start, [], fields, records⟩ =
      ⟨.start, [], [], records ++ [fields ++ names]⟩ := by
  induction names generalizing fields with
  | nil => exact absurd rfl hnames
  | cons s names ih =>
      obtain ⟨place, hplace, hfield⟩ := foldl_field s fields records
      cases names with
      | nil =>
          have htext : (",".intercalate ([s].map field) ++ "\n").toList =
              (field s).toList ++ ['\n'] := by simp
          rw [htext, List.foldl_append, hfield, List.foldl_cons, step_lineFeed hplace,
            String.ofList_toList]
          rfl
      | cons t names =>
          have htext : (",".intercalate ((s :: t :: names).map field) ++ "\n").toList =
              (field s).toList ++
                ',' :: (",".intercalate ((t :: names).map field) ++ "\n").toList := by
            simp
          rw [htext, List.foldl_append, hfield, List.foldl_cons, step_comma hplace,
            String.ofList_toList, ih (List.cons_ne_nil _ _), List.append_assoc,
            List.singleton_append]

/-- Texts are read back from a record, with an empty field between the two parts. -/
theorem foldl_record (hnames : names ≠ []) (hmore : more ≠ []) (records : List (List String)) :
    (record (names.map field) (more.map field)).toList.foldl step ⟨.start, [], [], records⟩ =
      ⟨.start, [], [], records ++ [names ++ [""] ++ more]⟩ := by
  have hfields : names.map field ++ "" :: more.map field = (names ++ "" :: more).map field := by
    rw [List.map_append, List.map_cons, field_empty]
  rw [record_eq (mt List.map_eq_nil_iff.1 hnames) (mt List.map_eq_nil_iff.1 hmore), hfields,
    foldl_line (by simp), List.nil_append, List.append_assoc, List.singleton_append]

end Reader

end Csv

namespace TruthTable

/-- The table can be made: by pushing rows, from an expression or from a circuit. -/
inductive Made : TruthTable → Prop where
  | pushed {t : TruthTable} (h : t.Pushed) : Made t
  | ofExpr (e : Expr) (names : List String) : Made (ofExpr e names)
  | tabulate {c : Circuit} {t : TruthTable} (h : c.tabulate.1 = some t) : Made t

variable {t : TruthTable}

theorem length_of_mem_tableRows {inputs outputs : List ComponentId} {rows : List Nat}
    {s : Simulator} {c : Circuit} :
    ∀ r ∈ (Circuit.tableRows inputs outputs rows s c).1,
      r.inputs.length = inputs.length ∧ r.outputs.length = outputs.length := by
  induction rows generalizing s c with
  | nil => exact fun r hr => nomatch hr
  | cons row rows ih =>
      rw [Circuit.tableRows]
      exact List.forall_mem_cons.2 ⟨⟨length_assignment _ _, List.length_map _⟩, ih⟩

/-- All rows of a table fit its columns. -/
theorem Made.fits (h : t.Made) : t.Fits := by
  cases h with
  | pushed h => exact h.fits
  | ofExpr e names =>
      intro r hr
      obtain ⟨⟨on, row⟩, -, rfl⟩ := List.mem_map.1 hr
      exact ⟨length_assignment _ _, rfl⟩
  | @tabulate c _ h =>
      rw [Circuit.tabulate] at h
      split at h
      · exact nomatch h
      · obtain rfl := Option.some.inj h
        intro r hr
        obtain ⟨hin, hout⟩ := length_of_mem_tableRows r hr
        exact ⟨by simpa using hin, by simpa using hout⟩

/-- The fields of a row: its input bits, an empty field, its output bits. -/
def fieldsOf (r : Row) : List String := r.inputs.map Text.bit ++ [""] ++ r.outputs.map Text.bit

/-- Rows are read back from their records. -/
theorem foldl_rows {rows : List Row}
    (h : ∀ r ∈ rows, r.inputs ≠ [] ∧ r.outputs ≠ []) (records : List (List String)) :
    (String.join (rows.map fun r =>
        Csv.record (r.inputs.map Text.bit) (r.outputs.map Text.bit))).toList.foldl
      Csv.Reader.step ⟨.start, [], [], records⟩ =
        ⟨.start, [], [], records ++ rows.map fieldsOf⟩ := by
  induction rows generalizing records with
  | nil => simp
  | cons r rows ih =>
      obtain ⟨⟨hin, hout⟩, hrows⟩ := List.forall_mem_cons.1 h
      have hbits : ∀ bits : List Bool, bits.map Text.bit = (bits.map Text.bit).map Csv.field :=
        fun bits => by simp only [List.map_map, Function.comp_def, Csv.field_bit]
      have hrecord := Csv.Reader.foldl_record
        (mt List.map_eq_nil_iff.1 hin : r.inputs.map Text.bit ≠ [])
        (mt List.map_eq_nil_iff.1 hout : r.outputs.map Text.bit ≠ []) records
      rw [← hbits, ← hbits] at hrecord
      rw [List.map_cons, String.join_cons, String.toList_append, List.foldl_append, hrecord,
        ih hrows]
      simp [fieldsOf]

end TruthTable

/-- A table can be read back from its text. Take a table with an input column and an output column
at least, with any names: they may hold commas, quotes and line feeds or be empty. A reader that
ends records at line feeds and fields at commas outside quotes and that takes two quotes inside
quotes for one reads the input names, an empty field and the output names, then for each row its
input bits, an empty field and its output bits, and nothing more. -/
theorem reading_csv {t : TruthTable} (h : t.Made) (hin : t.inputs ≠ []) (hout : t.outputs ≠ []) :
    Csv.read t.csv = (t.inputs ++ [""] ++ t.outputs) ::
      t.rows.map fun r => r.inputs.map Text.bit ++ [""] ++ r.outputs.map Text.bit := by
  have hrows : ∀ r ∈ t.rows, r.inputs ≠ [] ∧ r.outputs ≠ [] := by
    intro r hr
    obtain ⟨hinputs, houtputs⟩ := h.fits r hr
    exact ⟨fun e => hin (List.length_eq_zero_iff.1 (by rw [← hinputs, e]; rfl)),
      fun e => hout (List.length_eq_zero_iff.1 (by rw [← houtputs, e]; rfl))⟩
  have hread : t.csv.toList.foldl Csv.Reader.step {} =
      ⟨.start, [], [], [t.inputs ++ [""] ++ t.outputs] ++ t.rows.map TruthTable.fieldsOf⟩ := by
    rw [TruthTable.csv, String.toList_append, List.foldl_append, Csv.Reader.foldl_record hin hout,
      TruthTable.foldl_rows hrows]
    rfl
  rw [Csv.read, hread]
  exact if_pos ⟨rfl, rfl⟩

/-- The names of this table are an empty one, one that begins with a quote, one with a comma
behind quotes, one with a line feed, and one with none of these. -/
theorem reading_csv_awkwardNames :
    let t : TruthTable := ⟨["", "\"x", "say \"hi\", A"], ["two\nlines", "Σ"],
      [⟨[false, true, true], [true, false]⟩, ⟨[true, true, false], [false, true]⟩]⟩
    t.csv = ",\"\"\"x\",\"say \"\"hi\"\", A\",,\"two\nlines\",Σ\n0,1,1,,1,0\n1,1,0,,0,1\n" ∧
      Csv.read t.csv = [["", "\"x", "say \"hi\", A", "", "two\nlines", "Σ"],
        ["0", "1", "1", "", "1", "0"], ["1", "1", "0", "", "0", "1"]] := by
  intro t
  refine ⟨by decide, ?_⟩
  exact reading_csv (.pushed ⟨t.inputs, t.outputs, t.rows, rfl⟩) (List.cons_ne_nil _ _)
    (List.cons_ne_nil _ _)

end LogicCircuit
