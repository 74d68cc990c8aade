import LogicCircuit.Proofs.Table.Function
import LogicCircuit.Table.Comparison

/-!
# Grading a circuit

A circuit is graded against an expression row by row: the table of the circuit shows what its
first output does, and the truth column of the expression what it should do. Rows that agree and
rows that do not are sorted out (`Comparison.sorted_out`), and each row ends up on exactly one of
the two lists. Table and column number their rows in the same way, so a row compares the circuit
and the expression at the same bits. The main result is `grading_exact`.
-/

namespace LogicCircuit

/-- The value of a component when some sources are at the levels of a row. -/
def Circuit.valueUnder (c : Circuit) (inputs : List ComponentId) (id : ComponentId)
    (bits : List Bool) : Bool :=
  (c.withLevels (inputs.zip bits)).denote id

/-! ## Sorting out rows -/

namespace Comparison

variable {rows : List (Row × Bool)} {i : Nat} {m : Mismatch}

/-- The rows that agree are those whose first output is as expected. -/
theorem mem_agreeing_iff : i ∈ (ofRows rows).agreeing ↔
    ∃ row on, rows[i]? = some (row, on) ∧ row.outputs.headD false = on := by
  simp only [ofRows, List.mem_map, List.mem_filter, Prod.exists, List.mem_zipIdx_iff_getElem?,
    beq_iff_eq]
  grind

/-- A mismatch describes a row whose first output is not as expected. -/
theorem mem_mismatches_iff : m ∈ (ofRows rows).mismatches ↔
    ∃ row on, rows[m.index]? = some (row, on) ∧ row.outputs.headD false ≠ on ∧
      m = ⟨m.index, row.inputs, on, row.outputs.headD false⟩ := by
  simp only [ofRows, List.mem_map, List.mem_filter, Prod.exists, List.mem_zipIdx_iff_getElem?,
    bne_iff_ne]
  grind

/-- A row is on one of the two lists, and it says which. -/
theorem sorted_out {row : Row} {on : Bool} (hrow : rows[i]? = some (row, on)) :
    (i ∈ (ofRows rows).agreeing ↔ row.outputs.headD false = on) ∧
      ∀ m, m ∈ (ofRows rows).mismatches ∧ m.index = i ↔ row.outputs.headD false ≠ on ∧
        m = ⟨i, row.inputs, on, row.outputs.headD false⟩ := by
  refine ⟨?_, fun m => ?_⟩
  · rw [mem_agreeing_iff]
    constructor
    · rintro ⟨row', on', hrow', hagree⟩
      obtain ⟨rfl, rfl⟩ := Prod.mk.inj (Option.some.inj (hrow.symm.trans hrow'))
      exact hagree
    · exact fun hagree => ⟨row, on, hrow, hagree⟩
  · rw [mem_mismatches_iff]
    constructor
    · rintro ⟨⟨row', on', hrow', hdiffer, heq⟩, rfl⟩
      obtain ⟨rfl, rfl⟩ := Prod.mk.inj (Option.some.inj (hrow.symm.trans hrow'))
      exact ⟨hdiffer, heq⟩
    · rintro ⟨hdiffer, rfl⟩
      exact ⟨⟨row, on, hrow, hdiffer, rfl⟩, rfl⟩

/-- The numbers of the mismatches are those of the rows that do not agree. -/
theorem map_index_mismatches (rows : List (Row × Bool)) :
    (ofRows rows).mismatches.map (·.index) =
      (rows.zipIdx.filter fun r => !(r.1.1.outputs.headD false == r.1.2)).map (·.2) := by
  rw [ofRows, List.map_map]
  rfl

/-- Every row is on one of the two lists, once. -/
theorem perm_sorted_out (rows : List (Row × Bool)) :
    ((ofRows rows).agreeing ++ (ofRows rows).mismatches.map (·.index)).Perm
      (List.range rows.length) := by
  rw [map_index_mismatches]
  exact perm_numbers _ _

/-- Both lists are in the order of the rows. -/
theorem pairwise_sorted_out (rows : List (Row × Bool)) : (ofRows rows).agreeing.Pairwise (· < ·) ∧
    ((ofRows rows).mismatches.map (·.index)).Pairwise (· < ·) := by
  rw [map_index_mismatches]
  exact ⟨pairwise_numbers _ _, pairwise_numbers _ _⟩

/-- There are no mismatches exactly if all rows are as expected. -/
theorem isEquivalent_iff : (ofRows rows).isEquivalent = true ↔
    ∀ (i : Nat) (row : Row) (on : Bool), rows[i]? = some (row, on) →
      row.outputs.headD false = on := by
  rw [isEquivalent, List.isEmpty_iff, List.eq_nil_iff_forall_not_mem]
  constructor
  · intro h i row on hrow
    by_contra hdiffer
    exact h ⟨i, row.inputs, on, row.outputs.headD false⟩
      (mem_mismatches_iff.2 ⟨row, on, hrow, hdiffer, rfl⟩)
  · intro h m hm
    obtain ⟨row, on, hrow, hdiffer, -⟩ := mem_mismatches_iff.1 hm
    exact hdiffer (h _ row on hrow)

end Comparison

/-! ## Rows of a circuit -/

namespace Circuit

variable {c : Circuit} {t : TruthTable} {row : Row} {i : Nat}

/-- The rows of a circuit with the values that they should show. -/
def gradedRows (c : Circuit) (e : Expr) : List (Row × Bool) :=
  c.functionTable.rows.zip (e.truthColumn c.functionTable.inputs)

/-- A row of the table of a circuit is compared with the value of the expression for its bits. -/
theorem getElem?_gradedRows {e : Expr} {on : Bool} : (c.gradedRows e)[i]? = some (row, on) ↔
    c.functionTable.rows[i]? = some row ∧
      e.valueUnder c.functionTable.inputs row.inputs = on := by
  rw [gradedRows, List.getElem?_zip_eq_some, Expr.getElem?_truthColumn]
  refine and_congr_right fun hrow => ?_
  obtain ⟨hi, rfl⟩ := getElem?_functionTable.1 hrow
  simp [functionTable, functionRow, hi]

/-- The table and the column that it is compared with have as many rows as each other. -/
theorem length_gradedRows (c : Circuit) (e : Expr) :
    (c.gradedRows e).length = c.functionTable.rows.length := by
  simp [gradedRows, functionTable, Expr.truthColumn, Nat.one_shiftLeft]

/-- The first output of a row is the value of the first sink at the levels of the row. -/
theorem headD_outputs {first : ComponentId × String} {outputs : List (ComponentId × String)}
    (houtputs : c.tableOutputs = first :: outputs) (hrow : c.functionTable.rows[i]? = some row) :
    row.outputs.headD false = c.valueUnder (c.tableInputs.map (·.1)) first.1 row.inputs := by
  obtain ⟨-, rfl⟩ := getElem?_functionTable.1 hrow
  simp [functionRow, houtputs, valueUnder]

/-- A table of a circuit without loops is that of its function, and it has an output. -/
theorem WellWired.of_tabulate (hc : c.WellWired) (hcycle : c.hasCycle = false)
    (htable : c.tabulate.1 = some t) :
    t = c.functionTable ∧ ∃ first outputs, c.tableOutputs = first :: outputs := by
  have htabulate := (hc.tabulate_eq (hc.hasCycle_eq_false_iff.1 hcycle)).1
  rw [htable] at htabulate
  obtain ⟨hnonempty, hfunction⟩ := Option.ite_none_left_eq_some.1 htabulate.symm
  simp only [Bool.or_eq_true, List.isEmpty_iff, not_or] at hnonempty
  exact ⟨(Option.some.inj hfunction).symm, List.exists_cons_of_ne_nil hnonempty.2⟩

/-- The comparison sorts out the rows of the table. -/
theorem compareWith_eq (htable : c.tabulate.1 = some c.functionTable) (e : Expr) :
    (c.compareWith e).1 = some (.ofRows (c.gradedRows e)) := by
  show c.tabulate.1.map _ = _
  rw [htable]
  rfl

end Circuit

/-- Grading is exact. Let a reachable circuit without cycles have a table, with the switches and
constants for its inputs and the sinks for its outputs, by display name and then by name, and let
a text spell an expression. Then the two are compared, the rows that agree and those that do not
are listed in increasing order, and together they are all rows once. A row agrees exactly if the
first output has the value by recursion on its drivers, with the inputs at the binary digits of
the row, that the expression has for these digits; any other row is described by its number, its
digits and the two values. So the two are found equivalent exactly if they agree on every row. -/
theorem grading_exact {c : Circuit} (h : c.Reachable) (hcycle : c.hasCycle = false)
    {text : String} {e : Expr} (hparse : Expr.parse text = .ok e) {t : TruthTable}
    (htable : c.tabulate.1 = some t) :
    ∃ r inputs first outputs,
      (Expr.parse text).map (fun e => (c.compareWith e).1) = .ok (some r) ∧
      c.Columns Component.isTabulated inputs ∧ c.Columns (·.kind.isSink) (first :: outputs) ∧
      t.inputs = inputs.map (·.2) ∧ t.rows.length = 2 ^ inputs.length ∧
      (r.agreeing ++ r.mismatches.map (·.index)).Perm (List.range t.rows.length) ∧
      r.agreeing.Pairwise (· < ·) ∧ (r.mismatches.map (·.index)).Pairwise (· < ·) ∧
      (∀ i row, t.rows[i]? = some row →
        let expected := e.valueUnder t.inputs row.inputs
        let actual := c.valueUnder (inputs.map (·.1)) first.1 row.inputs
        row.inputs.length = inputs.length ∧ bitsToNat row.inputs.reverse = i ∧
        (i ∈ r.agreeing ↔ actual = expected) ∧
        ∀ m, m ∈ r.mismatches ∧ m.index = i ↔
          actual ≠ expected ∧ m = ⟨i, row.inputs, expected, actual⟩) ∧
      (r.isEquivalent = true ↔ ∀ row ∈ t.rows,
        c.valueUnder (inputs.map (·.1)) first.1 row.inputs =
          e.valueUnder t.inputs row.inputs) := by
  obtain ⟨rfl, first, outputs, houtputs⟩ := h.wellWired.of_tabulate hcycle htable
  have hgraded := Circuit.compareWith_eq htable e
  obtain ⟨hagreeing, hmismatches⟩ := Comparison.pairwise_sorted_out (c.gradedRows e)
  refine ⟨.ofRows (c.gradedRows e), c.tableInputs, first, outputs, by rw [hparse, ← hgraded]; rfl,
    c.columns_tableInputs, houtputs ▸ c.columns_tableOutputs, rfl, c.length_rows_functionTable,
    c.length_gradedRows e ▸ Comparison.perm_sorted_out _, hagreeing, hmismatches,
    fun i row hrow => ?_, ?_⟩
  · intro expected actual
    have hshown : row.outputs.headD false = actual := Circuit.headD_outputs houtputs hrow
    have hsorted := Comparison.sorted_out
      (Circuit.getElem?_gradedRows.2 ⟨hrow, rfl⟩ : (c.gradedRows e)[i]? = some (row, expected))
    rw [hshown] at hsorted
    obtain ⟨hwidth, hdigits⟩ := Circuit.digits_of_row hrow
    exact ⟨hwidth, hdigits, hsorted⟩
  · rw [Comparison.isEquivalent_iff]
    constructor
    · intro hall row hmem
      obtain ⟨i, hrow⟩ := List.mem_iff_getElem?.1 hmem
      rw [← Circuit.headD_outputs houtputs hrow]
      exact hall i row _ (Circuit.getElem?_gradedRows.2 ⟨hrow, rfl⟩)
    · intro hall i row on hcompared
      obtain ⟨hrow, rfl⟩ := Circuit.getElem?_gradedRows.1 hcompared
      rw [Circuit.headD_outputs houtputs hrow]
      exact hall row (List.mem_of_getElem? hrow)

/-- The counter of the held lever shows something if the lever or the constant is on. Against an
exclusive disjunction, with the column names in small letters, this is wrong where both are. -/
theorem grading_exact_heldLever : heldLever.Reachable ∧ heldLever.hasCycle = false ∧
    Expr.parse "a XOR b" = .ok (.binary .xor (.var "A") (.var "B")) ∧
    heldLever.tabulate.1 = some heldLever.functionTable ∧ ∃ r : Comparison,
      (Expr.parse "a XOR b").map (fun e => (heldLever.compareWith e).1) = .ok (some r) ∧
      (r.agreeing ++ r.mismatches.map (·.index)).Perm [0, 1, 2, 3] ∧
      ⟨3, [true, true], false, true⟩ ∈ r.mismatches ∧ r.isEquivalent = false := by
  have hreach : heldLever.Reachable := reachable_applyAll _
  have hcycle : heldLever.hasCycle = false := by decide +kernel
  have hparse : Expr.parse "a XOR b" = .ok (.binary .xor (.var "A") (.var "B")) := by
    decide +kernel
  have htable : heldLever.tabulate.1 = some heldLever.functionTable := by
    have hc := hreach.wellWired
    have hinputs := heldLever.columns_tableInputs.unique columns_heldLever.1
    have houtputs := heldLever.columns_tableOutputs.unique columns_heldLever.2
    rw [(hc.tabulate_eq (hc.hasCycle_eq_false_iff.1 hcycle)).1, hinputs, houtputs]
    rfl
  obtain ⟨r, inputs, first, outputs, hgraded, hinputs, houtputs, hnames, hheight, hall, -, -,
    hrows, hequivalent⟩ := grading_exact hreach hcycle hparse htable
  obtain rfl := hinputs.unique columns_heldLever.1
  obtain ⟨rfl, rfl⟩ := List.cons_eq_cons.1 (houtputs.unique columns_heldLever.2)
  rw [hheight] at hall
  have hlast : 3 < heldLever.functionTable.rows.length := by rw [hheight]; decide
  obtain ⟨hwidth, hdigits, -, hmismatch⟩ := hrows 3 _ (List.getElem?_eq_getElem hlast)
  obtain ⟨a, b, hbits⟩ := List.length_eq_two.1 hwidth
  obtain ⟨rfl, rfl⟩ : a = true ∧ b = true := by
    rw [hbits] at hdigits
    revert hdigits
    cases a <;> cases b <;> decide
  have hvalues : heldLever.valueUnder ["lever", "fixed"] "counter" [true, true] = true ∧
      (Expr.binary .xor (.var "A") (.var "B")).valueUnder ["A", "B"] [true, true] = false := by
    decide +kernel
  rw [hbits, hnames] at hmismatch
  have hmem : (⟨3, [true, true], false, true⟩ : Mismatch) ∈ r.mismatches := by
    refine ((hmismatch _).2 ⟨?_, ?_⟩).1 <;> simp [hvalues]
  refine ⟨hreach, hcycle, hparse, htable, r, hgraded, hall, hmem, ?_⟩
  rw [Comparison.isEquivalent, List.isEmpty_eq_false_iff]
  exact List.ne_nil_of_mem hmem

end LogicCircuit
