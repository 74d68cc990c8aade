import LogicCircuit.Proofs.Table.CanonicalForms
import LogicCircuit.Proofs.Table.Function

/-!
# The order of rows

With one more column a row shows one more digit in front, so by induction on the columns the bits
of a row are read back as its number (`foldl_assignment`) and rows of smaller numbers come first
in lexicographic order (`lex_assignment`). Hence the rows of a table show all input bits once and
in order (`rows_numbered_in_order`), and which ones a row shows is the same for the truth column
of an expression, for the table of an expression and for the table of a circuit.
-/

namespace LogicCircuit

/-- The input bits of all rows with so many columns, in the order of their numbers. -/
def inputPatterns (n : Nat) : List (List Bool) := (List.range (2 ^ n)).map (assignment · n)

variable {row row' n : Nat}

/-- The remainder with one more digit. -/
theorem mod_two_pow_succ (row n : Nat) :
    row % 2 ^ (n + 1) = row % 2 ^ n + 2 ^ n * (row.testBit n).toNat := by
  rw [Nat.mod_pow_succ, Nat.toNat_testBit]

/-- The digits of a row, read from the first column on, give its remainder. -/
theorem foldl_assignment (row n value : Nat) :
    (assignment row n).foldl (fun value bit => value * 2 + bit.toNat) value =
      value * 2 ^ n + row % 2 ^ n := by
  induction n generalizing value with
  | zero => simp [assignment, Nat.mod_one]
  | succ n ih =>
      rw [assignment_succ, List.foldl_cons, ih, mod_two_pow_succ, Nat.pow_succ]
      ring

/-- Rows are ordered as their numbers are, as far as the columns show them. -/
theorem lex_assignment (h : row % 2 ^ n < row' % 2 ^ n) :
    List.Lex (· < ·) (assignment row n) (assignment row' n) := by
  induction n with
  | zero => simp [Nat.mod_one] at h
  | succ n ih =>
      have hlt := Nat.mod_lt row' (Nat.two_pow_pos n)
      rw [mod_two_pow_succ, mod_two_pow_succ] at h
      rw [assignment_succ, assignment_succ]
      cases hbit : row.testBit n <;> cases hbit' : row'.testBit n <;> rw [hbit, hbit'] at h
      case false.true => exact .rel (by decide)
      case true.false =>
        simp only [Bool.toNat_true, Bool.toNat_false] at h
        omega
      case false.false | true.true => exact .cons (ih (Nat.lt_of_add_lt_add_right h))

theorem pairwise_inputPatterns (n : Nat) : (inputPatterns n).Pairwise (List.Lex (· < ·)) := by
  refine List.pairwise_map.2 (List.pairwise_lt_range.imp_of_mem fun hrow hrow' hlt => ?_)
  refine lex_assignment ?_
  rwa [Nat.mod_eq_of_lt (List.mem_range.1 hrow), Nat.mod_eq_of_lt (List.mem_range.1 hrow')]

theorem mem_inputPatterns_iff {bits : List Bool} : bits ∈ inputPatterns n ↔ bits.length = n := by
  rw [inputPatterns, List.mem_map]
  constructor
  · rintro ⟨row, -, rfl⟩
    exact length_assignment row n
  · rintro rfl
    obtain ⟨row, hrow, hbits⟩ := exists_row bits
    exact ⟨row, List.mem_range.2 hrow, hbits⟩

/-- All bits of the right length are those of one row. -/
theorem count_inputPatterns (bits : List Bool) (n : Nat) :
    (inputPatterns n).count bits = if bits.length = n then 1 else 0 := by
  have hnodup : (inputPatterns n).Nodup := by
    refine (pairwise_inputPatterns n).imp ?_
    rintro bits _ hlex rfl
    exact List.lex_irrefl Bool.lt_irrefl bits hlex
  simp only [hnodup.count, mem_inputPatterns_iff]

/-! ## Three kinds of tables -/

/-- A variable has on a row the bit of its column. -/
theorem Expr.getElem?_assignment_column {names : List String} {v : String} {j : Nat}
    (h : column? names v = some j) (row : Nat) :
    (assignment row names.length)[j]? = some (rowValue names row v) := by
  rw [getElem?_assignment (lt_length_of_column h), rowValue, h]

theorem Expr.truthColumn_eq_map (e : Expr) (names : List String) :
    e.truthColumn names = (inputPatterns names.length).map (e.valueUnder names) := by
  rw [truthColumn, inputPatterns, List.map_map, Nat.one_shiftLeft]
  exact List.map_congr_left fun row _ => congrArg e.eval (rowValue_eq_listedValue names row)

theorem TruthTable.rows_ofExpr_eq_map (e : Expr) (names : List String) : (ofExpr e names).rows =
    (inputPatterns names.length).map fun bits => ⟨bits, [e.valueUnder names bits]⟩ := by
  rw [rows_ofExpr, inputPatterns, List.map_map]
  rfl

/-- The rows that a circuit is run through show the bits that its inputs are set to. -/
theorem Circuit.map_inputs_tableRows (inputs outputs : List ComponentId) (rows : List Nat)
    (s : Simulator) (c : Circuit) :
    (tableRows inputs outputs rows s c).1.map (·.inputs) =
      rows.map (assignment · inputs.length) := by
  induction rows generalizing s c with
  | nil => rfl
  | cons row rows ih =>
      rw [tableRows, List.map_cons, List.map_cons, ih]

theorem Circuit.map_inputs_tabulate {c : Circuit} {t : TruthTable} (h : c.tabulate.1 = some t) :
    t.rows.map (·.inputs) = inputPatterns t.inputs.length := by
  rw [tabulate] at h
  split at h
  · cases h
  · obtain rfl := Option.some.inj h
    refine (map_inputs_tableRows _ _ _ _ _).trans ?_
    simp only [List.length_map, inputPatterns, Nat.one_shiftLeft]

/-- The numbers of rows are those of input bits. With `n` columns all lists of `n` bits stand in
the rows once, in increasing lexicographic order, and the bits of a row, read from the first
column on, give its number. A variable has on a row the bit of its column there. So a row of the
truth column of an expression, of its table and of the table of a circuit is a row for the same
input bits if it has the same number. -/
theorem rows_numbered_in_order (n : Nat) :
    (∀ bits : List Bool, (inputPatterns n).count bits = if bits.length = n then 1 else 0) ∧
    (inputPatterns n).Pairwise (List.Lex (· < ·)) ∧
    (∀ row < 2 ^ n, (inputPatterns n)[row]? = some (assignment row n) ∧
      (assignment row n).foldl (fun value bit => value * 2 + bit.toNat) 0 = row) ∧
    (∀ names : List String, names.length = n →
      (∀ row v j, Expr.column? names v = some j →
        (assignment row n)[j]? = some (Expr.rowValue names row v)) ∧
      ∀ e : Expr, e.truthColumn names = (inputPatterns n).map (e.valueUnder names) ∧
        (TruthTable.ofExpr e names).rows =
          (inputPatterns n).map fun bits => ⟨bits, [e.valueUnder names bits]⟩) ∧
    ∀ (c : Circuit) (t : TruthTable), c.tabulate.1 = some t → t.inputs.length = n →
      t.rows.map (·.inputs) = inputPatterns n := by
  refine ⟨fun bits => count_inputPatterns bits n, pairwise_inputPatterns n,
    fun row hrow => ⟨?_, ?_⟩, ?_, ?_⟩
  · rw [inputPatterns, List.getElem?_map, List.getElem?_range hrow, Option.map_some]
  · rw [foldl_assignment, Nat.zero_mul, Nat.zero_add, Nat.mod_eq_of_lt hrow]
  · rintro names rfl
    exact ⟨fun row v j hj => Expr.getElem?_assignment_column hj row, fun e =>
      ⟨e.truthColumn_eq_map names, TruthTable.rows_ofExpr_eq_map e names⟩⟩
  · rintro c t ht rfl
    exact Circuit.map_inputs_tabulate ht

/-- The table of the held lever runs through the four patterns of two bits, and so does that of an
expression over two variables. In the third row the second variable is off. -/
theorem rows_numbered_in_order_heldLever :
    (∃ t, heldLever.tabulate.1 = some t ∧ t.inputs.length = 2 ∧
      t.rows.map (·.inputs) = [[false, false], [false, true], [true, false], [true, true]]) ∧
    Expr.column? ["A", "B"] "b" = some 1 ∧ Expr.rowValue ["A", "B"] 2 "b" = false ∧
    (Expr.var "b").truthColumn ["A", "B"] = [false, true, false, true] ∧
    (assignment 2 2).foldl (fun value bit => value * 2 + bit.toNat) 0 = 2 := by
  obtain ⟨-, -, hrow, hnames, htable⟩ := rows_numbered_in_order 2
  obtain ⟨hvalue, hcolumn⟩ := hnames ["A", "B"] rfl
  have hb : Expr.column? ["A", "B"] "b" = some 1 := by decide +kernel
  have hinputs := heldLever.columns_tableInputs.unique columns_heldLever.1
  have houtputs := heldLever.columns_tableOutputs.unique columns_heldLever.2
  obtain ⟨t, ht, hlength⟩ : ∃ t, heldLever.tabulate.1 = some t ∧ t.inputs.length = 2 := by
    rw [Circuit.tabulate, hinputs, houtputs]
    exact ⟨_, rfl, rfl⟩
  refine ⟨⟨t, ht, hlength, htable heldLever t ht hlength⟩, hb, ?_, ?_, (hrow 2 (by decide)).2⟩
  · exact (Option.some.inj (hvalue 2 "b" 1 hb)).symm
  · rw [(hcolumn (.var "b")).1]
    decide +kernel

end LogicCircuit
