import LogicCircuit.Proofs.Expr.Chains
import LogicCircuit.Proofs.Table.Numbering
import LogicCircuit.Table.Terms

/-!
# Canonical forms

The term of a row is worth the value that it is listed for on this row only (`Term.Marks`): as a
product of literals it is true there, as a sum it is false. Joined by the other operator, the
terms have this value where one of them has it (`Polarity.exists_joined`), which is where the
expression has it, as every assignment is a row. Products and sums only differ in the value and in
the operators, and `Polarity` says what the argument needs of them. The main result is
`canonical_forms`.
-/

namespace LogicCircuit

/-- Operators for a value: what the inner one joins has it where all operands have it, what the
outer one joins where one of them has it. -/
structure Polarity (on : Bool) (inner outer : BinaryOp) : Prop where
  all : ∀ a b, inner.apply a b = on ↔ a = on ∧ b = on
  any : ∀ a b, outer.apply a b = on ↔ a = on ∨ b = on

theorem polarity_products : Polarity true .and .or := ⟨by decide, by decide⟩

theorem polarity_sums : Polarity false .or .and := ⟨by decide, by decide⟩

variable {on : Bool} {inner outer : BinaryOp} {e : Expr} {name : String} {names : List String}
  {bits : List Bool} {value : String → Bool} {x : Term} {t : Terms} {row : Row} {i : Nat}

/-! ## Terms -/

namespace Expr

/-- What a literal spells. -/
def literal (name : String) (plain : Bool) : Expr := if plain then var name else not (var name)

/-- A literal writes what it spells. -/
theorem Writes.literal (h : IsName name) (plain : Bool) :
    Writes .negation (TruthTable.literal name plain).toList (literal name plain) := by
  cases plain with
  | true => exact (Writes.var h).unnegated
  | false =>
      have hnot := (Writes.var h).unnegated.not
      rwa [← String.toList_append] at hnot

/-- A literal has the value that it is listed for where the variable has its bit. -/
theorem eval_literal {bit : Bool} :
    (literal name (bit == on)).eval value = on ↔ value name = bit := by
  cases on <;> cases bit <;> simp [literal, eval]

end Expr

/-- The text of a term: literals of all columns. -/
def TruthTable.rowTerm (names : List String) (bits : List Bool) (on : Bool) (op : BinaryOp) :
    String :=
  (" " ++ op.name ++ " ").intercalate
    (List.zipWith (fun name b => literal name (b == on)) names bits)

/-- The text of a term writes operands of one operator, and it is worth a value for these bits of
the columns only. -/
def Term.Marks (x : Term) (op : BinaryOp) (on : Bool) (names : List String) (bits : List Bool) :
    Prop :=
  ∃ d, Expr.Writes (.chain op.strength) x.text.toList d ∧
    ∀ value, d.eval value = on ↔ names.map value = bits

/-- Names have given bits if each of them has its own. -/
theorem map_eq_iff_forall_zip (h : names.length = bits.length) :
    names.map value = bits ↔ ∀ y ∈ names.zip bits, value y.1 = y.2 := by
  rw [← List.forall₂_eq_eq_eq, List.forall₂_map_left_iff, List.forall₂_iff_zip]
  exact ⟨fun hall y hy => hall.2 hy, fun hall => ⟨h, fun {a b} hab => hall (a, b) hab⟩⟩

/-- Literals of all columns mark the bits that they are made from. -/
theorem Polarity.marks (h : Polarity on inner outer) (hnames : ∀ v ∈ names, IsName v)
    (hne : names ≠ []) (hbits : names.length = bits.length)
    (hx : x.text = TruthTable.rowTerm names bits on inner) : x.Marks inner on names bits := by
  set text : String × Bool → String := fun y => TruthTable.literal y.1 (y.2 == on)
  set operand : String × Bool → Expr := fun y => .literal y.1 (y.2 == on)
  have htext : List.zipWith (fun name b => TruthTable.literal name (b == on)) names bits =
      (names.zip bits).map text := (List.map_zip_eq_zipWith (f := text)).symm
  have hwrites : ∀ y ∈ names.zip bits,
      Expr.Writes inner.strength.operand (text y).toList (operand y) := fun y hy =>
    (Expr.Writes.literal (hnames y.1 (List.of_mem_zip hy).1) _).operand _
  have hvalue : ∀ value, (∀ d ∈ (names.zip bits).map operand, d.eval value = on) ↔
      names.map value = bits := fun value => by
    rw [map_eq_iff_forall_zip hbits, List.forall_mem_map]
    exact forall₂_congr fun y _ => Expr.eval_literal
  cases hpairs : names.zip bits with
  | nil =>
      obtain hnil | hnil := List.zip_eq_nil_iff.1 hpairs
      · exact absurd hnil hne
      · rw [hnil, List.length_nil, List.length_eq_zero_iff] at hbits
        exact absurd hbits hne
  | cons y ys =>
      rw [hpairs] at htext hwrites hvalue
      refine ⟨_, ?_, fun value => (Expr.eval_chain_all h.all).trans (hvalue value)⟩
      rw [hx, TruthTable.rowTerm, htext]
      exact Expr.Writes.join hwrites

/-- Terms in parentheses, joined, are parsed as an expression that is worth the value for the bits
that one of them marks. -/
theorem Polarity.exists_joined (h : Polarity on inner outer) (hne : t.terms ≠ [])
    {marked : Term → List Bool} (hmarks : ∀ x ∈ t.terms, x.Marks inner on names (marked x)) :
    ∃ d, Expr.parse (t.joined outer) = .ok d ∧
      ∀ value, d.eval value = on ↔ ∃ x ∈ t.terms, names.map value = marked x := by
  have : Nonempty Expr := ⟨.const on⟩
  choose! operand hwrites hvalue using hmarks
  have hgroups : ∀ x ∈ t.terms, Expr.Writes outer.strength.operand
      ("(" ++ x.text ++ ")").toList (operand x) := fun x hx => by
    simpa using (hwrites x hx).whole.group.unnegated.operand outer.strength
  have hany : ∀ value, (∃ d ∈ t.terms.map operand, d.eval value = on) ↔
      ∃ x ∈ t.terms, names.map value = marked x := fun value => by
    simp only [List.mem_map, exists_exists_and_eq_and]
    exact exists_congr fun x => and_congr_right fun hx => hvalue x hx value
  obtain ⟨x, xs, hterms⟩ := List.exists_cons_of_ne_nil hne
  rw [hterms] at hgroups hany
  refine ⟨_, Expr.Writes.parse ?_, fun value =>
    hterms ▸ (Expr.eval_chain_any h.any).trans (hany value)⟩
  rw [Terms.joined, hterms]
  exact (Expr.Writes.join hgroups).whole

/-! ## Terms of an expression -/

namespace TruthTable

/-- A row shows the digits of its number and the value of the expression for them. -/
theorem rows_ofExpr (e : Expr) (names : List String) :
    (ofExpr e names).rows = (List.range (2 ^ names.length)).map fun i =>
      ⟨assignment i names.length, [e.valueUnder names (assignment i names.length)]⟩ := by
  rw [ofExpr, Expr.truthColumn, zipIdx_map_range, List.map_map, Nat.one_shiftLeft]
  simp only [Expr.rowValue_eq_listedValue]
  rfl

/-- The numbers of the rows where an expression has a value. -/
def rowsWith (e : Expr) (names : List String) (on : Bool) : List Nat :=
  (List.range (2 ^ names.length)).filter fun i =>
    e.valueUnder names (assignment i names.length) == on

theorem mem_rowsWith : i ∈ rowsWith e names on ↔
    i < 2 ^ names.length ∧ e.valueUnder names (assignment i names.length) = on := by
  rw [rowsWith, List.mem_filter, List.mem_range, beq_iff_eq]

/-- An expression has a value in its column exactly if it has it on a row. -/
theorem mem_column_ofExpr : on ∈ (ofExpr e names).column 0 ↔ ∃ i, i ∈ rowsWith e names on := by
  rw [column, rows_ofExpr, List.map_map]
  simp only [List.mem_map, List.mem_range, mem_rowsWith]
  rfl

/-- The terms of an expression for a value are those of the rows where it has the value. -/
def termsWith (e : Expr) (names : List String) (on : Bool) (op : BinaryOp) : Terms :=
  ⟨e.text, (rowsWith e names on).map fun i =>
    ⟨i, rowTerm names (assignment i names.length) on op⟩⟩

theorem terms_ofExpr (e : Expr) (names : List String) (on : Bool) (op : BinaryOp) :
    (ofExpr e names).terms on op = [termsWith e names on op] := by
  show [(⟨e.text, ((ofExpr e names).rows.zipIdx.filter _).map _⟩ : Terms)] = _
  rw [rows_ofExpr, zipIdx_map_range, List.filter_map, List.map_map]
  rfl

theorem map_index_termsWith (e : Expr) (names : List String) (on : Bool) (op : BinaryOp) :
    (termsWith e names on op).terms.map (·.index) = rowsWith e names on := by
  rw [termsWith, List.map_map]
  exact List.map_id _

/-- The rows where an expression is true and those where it is false are all rows once. -/
theorem perm_rowsWith (e : Expr) (names : List String) :
    (rowsWith e names true ++ rowsWith e names false).Perm (List.range (2 ^ names.length)) := by
  have hnot : (fun i => e.valueUnder names (assignment i names.length) == false) =
      fun i => !(e.valueUnder names (assignment i names.length) == true) := by
    funext i
    cases e.valueUnder names (assignment i names.length) <;> rfl
  rw [rowsWith, rowsWith, hnot]
  exact List.filter_append_perm _ _

end TruthTable

/-- Where all variables of an expression are listed, by names that can be written, the terms for a
value that it has on some row, joined, are parsed as an expression that is equal to it. -/
theorem Polarity.exists_canonical (h : Polarity on inner outer) (hnames : ∀ v ∈ names, IsName v)
    (hlisted : ∀ v ∈ e.occurrences, v ∈ names) (hne : names ≠ [])
    (hon : on ∈ (TruthTable.ofExpr e names).column 0) :
    ∃ d, Expr.parse ((TruthTable.termsWith e names on inner).joined outer) = .ok d ∧
      ∀ value, d.eval value = e.eval value := by
  obtain ⟨i, hi⟩ := TruthTable.mem_column_ofExpr.1 hon
  have hsome : (TruthTable.termsWith e names on inner).terms ≠ [] :=
    List.ne_nil_of_mem (List.mem_map_of_mem hi)
  have hmarks : ∀ x ∈ (TruthTable.termsWith e names on inner).terms,
      x.Marks inner on names (assignment x.index names.length) :=
    List.forall_mem_map.2 fun i _ => h.marks hnames hne (length_assignment i _).symm rfl
  obtain ⟨d, hparse, hvalue⟩ := h.exists_joined hsome hmarks
  refine ⟨d, hparse, fun value => ?_⟩
  -- every assignment is a row, and the expression has there the value of the row
  have hiff : d.eval value = on ↔ e.eval value = on := by
    rw [hvalue, ← Expr.valueUnder_map hnames hlisted value]
    simp only [TruthTable.termsWith, List.mem_map, exists_exists_and_eq_and,
      TruthTable.mem_rowsWith]
    constructor
    · rintro ⟨i, ⟨-, heval⟩, hrow⟩
      exact hrow ▸ heval
    · intro heval
      obtain ⟨i, hi, hrow⟩ := exists_row (names.map value)
      rw [List.length_map] at hi hrow
      exact ⟨i, ⟨hi, hrow ▸ heval⟩, hrow.symm⟩
  cases on <;> simpa using hiff

/-- Minterms and maxterms are canonical forms. Let a text spell an expression with one variable or
more. The table over its variables has one list of minterms and one of maxterms. If the expression
is true on some row, its minterms joined by `OR` are parsed as an expression with the same value
under every assignment; if it is false on some row, its maxterms joined by `AND` are. The terms of
both lists together have the number of each row once. -/
theorem canonical_forms {text : String} {e : Expr} (hparse : Expr.parse text = .ok e)
    (hvars : e.variableNames ≠ []) :
    let t := TruthTable.ofExpr e e.variableNames
    ∃ products sums : Terms, t.minterms = [products] ∧ t.maxterms = [sums] ∧
      (true ∈ t.column 0 → ∃ d, Expr.parse (products.joined .or) = .ok d ∧
        ∀ value, d.eval value = e.eval value) ∧
      (false ∈ t.column 0 → ∃ d, Expr.parse (sums.joined .and) = .ok d ∧
        ∀ value, d.eval value = e.eval value) ∧
      t.rows.length = 2 ^ e.variableNames.length ∧
      (products.terms.map (·.index) ++ sums.terms.map (·.index)).Perm
        (List.range t.rows.length) := by
  intro t
  have hnames : ∀ v ∈ e.variableNames, IsName v := fun v hv =>
    Expr.wellNamed_of_parse hparse v (Expr.mem_variableNames_iff.1 hv)
  have hlisted : ∀ v ∈ e.occurrences, v ∈ e.variableNames := fun v =>
    Expr.mem_variableNames_iff.2
  have hheight : t.rows.length = 2 ^ e.variableNames.length := by
    rw [TruthTable.rows_ofExpr, List.length_map, List.length_range]
  refine ⟨_, _, TruthTable.terms_ofExpr e e.variableNames true .and,
    TruthTable.terms_ofExpr e e.variableNames false .or,
    polarity_products.exists_canonical hnames hlisted hvars,
    polarity_sums.exists_canonical hnames hlisted hvars, hheight, ?_⟩
  rw [hheight, TruthTable.map_index_termsWith, TruthTable.map_index_termsWith]
  exact TruthTable.perm_rowsWith e e.variableNames

/-- The canonical forms of an exclusive disjunction, one variable in a small letter. -/
theorem canonical_forms_xor :
    let e : Expr := .binary .xor (.var "A") (.var "B")
    Expr.parse "A XOR b" = .ok e ∧ e.variableNames = ["A", "B"] ∧
      (∃ d, Expr.parse "(NOT A AND B) OR (A AND NOT B)" = .ok d ∧
        ∀ value, d.eval value = e.eval value) ∧
      ∃ d, Expr.parse "(A OR B) AND (NOT A OR NOT B)" = .ok d ∧
        ∀ value, d.eval value = e.eval value := by
  intro e
  have hparse : Expr.parse "A XOR b" = .ok e := by decide +kernel
  have hvars : e.variableNames = ["A", "B"] := by decide +kernel
  obtain ⟨products, sums, hproducts, hsums, htrue, hfalse, -, -⟩ :=
    canonical_forms hparse (by rw [hvars]; decide)
  rw [hvars] at hproducts hsums htrue hfalse
  have hor : (TruthTable.ofExpr e ["A", "B"]).minterms.map (·.joined .or) =
      ["(NOT A AND B) OR (A AND NOT B)"] := by decide +kernel
  have hand : (TruthTable.ofExpr e ["A", "B"]).maxterms.map (·.joined .and) =
      ["(A OR B) AND (NOT A OR NOT B)"] := by decide +kernel
  rw [hproducts] at hor
  rw [hsums] at hand
  exact ⟨hparse, hvars, List.singleton_inj.1 hor ▸ htrue (by decide +kernel),
    List.singleton_inj.1 hand ▸ hfalse (by decide +kernel)⟩

end LogicCircuit
