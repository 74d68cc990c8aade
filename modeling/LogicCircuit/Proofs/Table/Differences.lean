import LogicCircuit.Table.Comparison
import Mathlib.Data.List.Forall2

/-!
# Tables side by side

What tells two truth tables apart is found row by row. `TruthTable.FirstApart` says, without the
search, that a row is the first on which two tables look different, and the answer of the
comparison is such a row (`TruthTable.difference?_eq_some_iff`). The comparison looks at the
outputs alone, so the inputs count only through their number. The main result
`difference_by_outputs` says what is found for tables that were made by pushing rows, and that it
is what tells the tables apart as a whole where row by row they have the same inputs. Elsewhere
different tables pass for the same: `inputs_not_compared`.
-/

namespace LogicCircuit

namespace TruthTable

/-- Two tables have as many input columns, output columns and rows as each other. -/
structure SameShape (a b : TruthTable) : Prop where
  inputs : a.inputs.length = b.inputs.length
  outputs : a.outputs.length = b.outputs.length
  rows : a.rows.length = b.rows.length

/-- Rows `x` and `y` of two tables stand at place `r` and do not look the same, while all rows
before them do. -/
structure FirstApart {α : Type} (view : Row → α) (a b : TruthTable) (r : Nat) (x y : Row) :
    Prop where
  left : a.rows[r]? = some x
  right : b.rows[r]? = some y
  apart : view x ≠ view y
  before : ∀ q < r, a.rows[q]?.map view = b.rows[q]?.map view

/-- The table was made by pushing rows, whatever they are. -/
def Pushed (t : TruthTable) : Prop := ∃ inputs outputs rows, ofRows? inputs outputs rows = some t

/-- All rows fit the columns. -/
def Fits (t : TruthTable) : Prop :=
  ∀ x ∈ t.rows, x.inputs.length = t.inputs.length ∧ x.outputs.length = t.outputs.length

variable {a b t t' : TruthTable} {x y : Row} {rows : List Row} {r : Nat} {p : List Bool}

/-! ## Pushing -/

/-- A row that is pushed fits the columns. -/
theorem Fits.push (h : t.Fits) (hpush : t.push? x = some t') : t'.Fits := by
  obtain ⟨hx, hnext⟩ := Option.ite_none_right_eq_some.1 hpush
  obtain rfl := Option.some.inj hnext
  intro y hy
  rcases List.mem_append.1 hy with hy | hy
  · exact h y hy
  · exact List.mem_singleton.1 hy ▸ hx

theorem Fits.pushAll (h : t.Fits) (hpush : rows.foldlM push? t = some t') : t'.Fits := by
  induction rows generalizing t with
  | nil => exact Option.some.inj hpush ▸ h
  | cons x rows ih =>
      obtain ⟨next, hnext, hrest⟩ := Option.bind_eq_some_iff.1 hpush
      exact ih (h.push hnext) hrest

theorem Pushed.fits (h : t.Pushed) : t.Fits := by
  obtain ⟨inputs, outputs, rows, hrows⟩ := h
  have hempty : (⟨inputs, outputs, []⟩ : TruthTable).Fits := fun x hx => nomatch hx
  exact hempty.pushAll hrows

/-! ## Searching -/

/-- The search through pairs of rows finds the first that have different outputs. -/
theorem find?_eq_some_iff_firstApart :
    (a.rows.zip b.rows).find? (fun r => r.1.outputs != r.2.outputs) = some (x, y) ↔
      ∃ r, FirstApart (·.outputs) a b r x y := by
  have hsame : ∀ q (hq : q < (a.rows.zip b.rows).length),
      (a.rows.zip b.rows)[q].1.outputs = (a.rows.zip b.rows)[q].2.outputs ↔
        a.rows[q]?.map (·.outputs) = b.rows[q]?.map (·.outputs) := fun q hq => by
    rw [List.length_zip, Nat.lt_min] at hq
    simp [hq.1, hq.2]
  rw [List.find?_eq_some_iff_getElem]
  constructor
  · rintro ⟨hapart, r, hr, hrow, hbefore⟩
    obtain ⟨hx, hy⟩ := List.getElem?_zip_eq_some.1 (List.getElem?_eq_some_iff.2 ⟨hr, hrow⟩)
    refine ⟨r, hx, hy, by simpa using hapart, fun q hq => (hsame q (Nat.lt_trans hq hr)).1 ?_⟩
    simpa using hbefore q hq
  · rintro ⟨r, hx, hy, hapart, hbefore⟩
    have hpair : (a.rows.zip b.rows)[r]? = some (x, y) := List.getElem?_zip_eq_some.2 ⟨hx, hy⟩
    obtain ⟨hr, hrow⟩ := List.getElem?_eq_some_iff.1 hpair
    refine ⟨by simpa using hapart, r, hr, hrow, fun q hq => ?_⟩
    simpa using (hsame q (Nat.lt_trans hq hr)).2 (hbefore q hq)

/-- Whatever does not have the same shape is told apart by an empty pattern. -/
theorem difference?_of_not_sameShape (h : ¬ a.SameShape b) : a.difference? b = some [] := by
  rw [difference?, if_pos]
  simp only [Bool.or_eq_true, bne_iff_ne]
  by_contra hnone
  simp only [not_or, ne_eq, not_not] at hnone
  exact h ⟨hnone.1.1, hnone.1.2, hnone.2⟩

theorem difference?_of_sameShape (h : a.SameShape b) : a.difference? b =
    ((a.rows.zip b.rows).find? fun r => r.1.outputs != r.2.outputs).map (·.1.inputs) := by
  rw [difference?, if_neg]
  simp [h.inputs, h.outputs, h.rows]

/-- What tells two tables apart is an empty pattern if they do not have the same shape, and
otherwise the inputs of the first row with different outputs. -/
theorem difference?_eq_some_iff : a.difference? b = some p ↔
    ¬ a.SameShape b ∧ p = [] ∨
      a.SameShape b ∧ ∃ r x y, FirstApart (·.outputs) a b r x y ∧ x.inputs = p := by
  by_cases h : a.SameShape b
  · simp only [difference?_of_sameShape h, Option.map_eq_some_iff, Prod.exists,
      find?_eq_some_iff_firstApart, h, not_true_eq_false, false_and, true_and, false_or]
    grind
  · simp [difference?_of_not_sameShape h, h, eq_comm]

/-- Nothing tells two tables apart exactly if they have as many inputs and outputs as each other
and the same outputs on all rows. -/
theorem difference?_eq_none_iff {s t : TruthTable} :
    s.difference? t = none ↔ s.inputs.length = t.inputs.length ∧
      s.outputs.length = t.outputs.length ∧ s.rows.map (·.outputs) = t.rows.map (·.outputs) := by
  have hrows : s.rows.map (·.outputs) = t.rows.map (·.outputs) ↔ s.rows.length = t.rows.length ∧
      ∀ r ∈ s.rows.zip t.rows, r.1.outputs = r.2.outputs := by
    rw [← List.forall₂_eq_eq_eq, List.forall₂_map_left_iff, List.forall₂_map_right_iff,
      List.forall₂_iff_zip]
    simp
  rw [hrows]
  by_cases h : s.SameShape t
  · rw [difference?_of_sameShape h, Option.map_eq_none_iff, List.find?_eq_none]
    simp [h.inputs, h.outputs, h.rows]
  · rw [difference?_of_not_sameShape h]
    refine iff_of_false (Option.some_ne_none _) fun hsame => h ⟨hsame.1, hsame.2.1, hsame.2.2.1⟩

/-! ## Rows with the same inputs -/

/-- Where two tables have rows with the same inputs, they have the same rows there if these have
the same outputs. -/
theorem getElem?_eq_iff_outputs (h : a.rows.map (·.inputs) = b.rows.map (·.inputs)) (q : Nat) :
    a.rows[q]? = b.rows[q]? ↔ a.rows[q]?.map (·.outputs) = b.rows[q]?.map (·.outputs) := by
  have hinputs : a.rows[q]?.map Row.inputs = b.rows[q]?.map Row.inputs := by
    rw [← List.getElem?_map, ← List.getElem?_map]
    exact congrArg (·[q]?) h
  cases ha : a.rows[q]? with
  | none => cases hb : b.rows[q]? <;> simp
  | some x =>
      cases hb : b.rows[q]? with
      | none => simp
      | some y =>
          obtain ⟨inputs, outputs⟩ := x
          obtain ⟨inputs', outputs'⟩ := y
          rw [ha, hb] at hinputs
          obtain rfl : inputs = inputs' := Option.some.inj hinputs
          simp

/-- Where all rows have the same inputs, a row is the first that is different if it is the first
with different outputs. -/
theorem firstApart_id_iff (h : a.rows.map (·.inputs) = b.rows.map (·.inputs)) :
    FirstApart id a b r x y ↔ FirstApart (·.outputs) a b r x y := by
  have hsame := getElem?_eq_iff_outputs h
  constructor
  · rintro ⟨hx, hy, hapart, hbefore⟩
    have hrow := hsame r
    rw [hx, hy] at hrow
    refine ⟨hx, hy, fun hout => hapart ?_, fun q hq => ?_⟩
    · exact Option.some.inj (hrow.2 (congrArg some hout))
    · exact (hsame q).1 (by simpa using hbefore q hq)
  · rintro ⟨hx, hy, hapart, hbefore⟩
    refine ⟨hx, hy, fun hrow => hapart (congrArg Row.outputs hrow), fun q hq => ?_⟩
    exact congrArg (Option.map id) ((hsame q).2 (hbefore q hq))

/-- Where all rows have the same inputs, they are the same if they have the same outputs. -/
theorem rows_eq_iff_outputs (h : a.rows.map (·.inputs) = b.rows.map (·.inputs)) :
    a.rows = b.rows ↔ a.rows.map (·.outputs) = b.rows.map (·.outputs) := by
  refine ⟨congrArg _, fun hout => List.ext_getElem? fun q => (getElem?_eq_iff_outputs h q).2 ?_⟩
  rw [← List.getElem?_map, ← List.getElem?_map, hout]

end TruthTable

open TruthTable

/-- What the comparison of a truth table that was made by pushing rows with any other one says.
Nothing tells them apart exactly if they have the same shape and the same outputs on every row. A
pattern that is not empty is found exactly if they have the same shape and these are the inputs,
in the first table, of the first row on which the outputs are different; where there are input
columns, the empty pattern is found exactly if the shapes are different. If row by row the tables
have the same inputs, then nothing tells them apart exactly if the shape and all rows are the
same, and otherwise a pattern belongs to the first row that is different. -/
theorem difference_by_outputs {a b : TruthTable} (ha : a.Pushed) :
    (a.difference? b = none ↔
      a.SameShape b ∧ a.rows.map (·.outputs) = b.rows.map (·.outputs)) ∧
    (∀ p ≠ [], a.difference? b = some p ↔
      a.SameShape b ∧ ∃ r x y, FirstApart (·.outputs) a b r x y ∧ x.inputs = p) ∧
    (a.inputs ≠ [] → (a.difference? b = some [] ↔ ¬ a.SameShape b)) ∧
    (a.rows.map (·.inputs) = b.rows.map (·.inputs) →
      (a.difference? b = none ↔ a.SameShape b ∧ a.rows = b.rows) ∧
      ∀ p ≠ [], a.difference? b = some p ↔
        a.SameShape b ∧ ∃ r x y, FirstApart id a b r x y ∧ x.inputs = p) := by
  have hnone : a.difference? b = none ↔
      a.SameShape b ∧ a.rows.map (·.outputs) = b.rows.map (·.outputs) := by
    rw [difference?_eq_none_iff]
    refine ⟨fun h => ⟨⟨h.1, h.2.1, ?_⟩, h.2.2⟩, fun h => ⟨h.1.inputs, h.1.outputs, h.2⟩⟩
    simpa using congrArg List.length h.2.2
  have hsome : ∀ p ≠ [], a.difference? b = some p ↔
      a.SameShape b ∧ ∃ r x y, FirstApart (·.outputs) a b r x y ∧ x.inputs = p := fun p hp => by
    simp [difference?_eq_some_iff, hp]
  refine ⟨hnone, hsome, fun hcolumns => ?_, fun hinputs => ⟨?_, fun p hp => ?_⟩⟩
  · rw [difference?_eq_some_iff]
    refine ⟨fun h => ?_, fun h => .inl ⟨h, rfl⟩⟩
    rcases h with ⟨h, -⟩ | ⟨-, r, x, y, hrow, hempty⟩
    · exact h
    · -- a row that was pushed has as many bits as there are columns
      have hwidth := (ha.fits x (List.mem_of_getElem? hrow.left)).1
      rw [hempty, List.length_nil, eq_comm, List.length_eq_zero_iff] at hwidth
      exact absurd hwidth hcolumns
  · rw [hnone, rows_eq_iff_outputs hinputs]
  · rw [hsome p hp]
    simp only [firstApart_id_iff hinputs]

/-- The tables of a conjunction and of an inhibition have the same inputs on all rows, and the
third row is the first that is different. -/
theorem difference_by_outputs_inhibition :
    let conjunction : TruthTable := ⟨["A", "B"], ["Q"], [⟨[false, false], [false]⟩,
      ⟨[false, true], [false]⟩, ⟨[true, false], [false]⟩, ⟨[true, true], [true]⟩]⟩
    let inhibition : TruthTable := ⟨["A", "B"], ["Q"], [⟨[false, false], [false]⟩,
      ⟨[false, true], [false]⟩, ⟨[true, false], [true]⟩, ⟨[true, true], [false]⟩]⟩
    conjunction.Pushed ∧ conjunction.inputs ≠ [] ∧
      conjunction.rows.map (·.inputs) = inhibition.rows.map (·.inputs) ∧
      conjunction.difference? inhibition = some [true, false] ∧
      conjunction.difference? ⟨["A", "B", "C"], ["Q"], []⟩ = some [] := by
  intro conjunction inhibition
  have hpushed : conjunction.Pushed := ⟨["A", "B"], ["Q"], conjunction.rows, rfl⟩
  have hinputs : conjunction.rows.map (·.inputs) = inhibition.rows.map (·.inputs) := by decide
  have hrow : FirstApart id conjunction inhibition 2 ⟨[true, false], [false]⟩
      ⟨[true, false], [true]⟩ := ⟨rfl, rfl, by decide, by decide⟩
  obtain ⟨-, -, -, hsame⟩ := difference_by_outputs (b := inhibition) hpushed
  obtain ⟨-, -, hempty, -⟩ := difference_by_outputs (b := ⟨["A", "B", "C"], ["Q"], []⟩) hpushed
  refine ⟨hpushed, by decide, hinputs, ?_, (hempty (by decide)).2 fun h => ?_⟩
  · exact ((hsame hinputs).2 _ (by decide)).2 ⟨⟨rfl, rfl, rfl⟩, 2, _, _, hrow, rfl⟩
  · exact absurd h.inputs (by decide)

/-- The rows of the two tables pair the same outputs with different inputs, already on the first
row, and the comparison does not tell the tables apart. -/
theorem inputs_not_compared :
    let a : TruthTable := ⟨["A"], ["Q"], [⟨[false], [false]⟩, ⟨[true], [true]⟩]⟩
    let b : TruthTable := ⟨["A"], ["Q"], [⟨[true], [false]⟩, ⟨[false], [true]⟩]⟩
    a.Pushed ∧ b.Pushed ∧ a.rows[0]?.map (·.inputs) ≠ b.rows[0]?.map (·.inputs) ∧
      a.difference? b = none := by
  intro a b
  exact ⟨⟨["A"], ["Q"], a.rows, rfl⟩, ⟨["A"], ["Q"], b.rows, rfl⟩, by decide, by decide⟩

end LogicCircuit
