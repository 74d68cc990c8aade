import LogicCircuit.Component.Value
import LogicCircuit.Expr.Columns
import LogicCircuit.Proofs.Expr.Rows

/-!
# Numbers of rows

A row of a truth table has the binary digits of its number, the first column highest, and a
variable has on it the digit of the first column whose name it is
(`Expr.rowValue_eq_listedValue`). Where rows are numbered and some of them are singled out, the
numbers stay in increasing order, and together with the numbers of the other rows they are all
numbers once (`pairwise_numbers`, `perm_numbers`).
-/

namespace LogicCircuit

/-! ## Digits -/

/-- From the last column on, a row has the binary digits of its number, the lowest first. -/
theorem reverse_assignment (row n : Nat) :
    (assignment row n).reverse = (List.range n).map row.testBit := by
  refine List.ext_getElem (by simp [assignment]) fun i hi _ => ?_
  have hin : i < n := by simpa [assignment] using hi
  simp only [assignment, List.getElem_reverse, List.getElem_map, List.getElem_range,
    List.length_map, List.length_range]
  congr 1
  omega

/-- The lowest digits of a number stand for its remainder. -/
theorem bitsToNat_testBits (row n : Nat) :
    bitsToNat ((List.range n).map row.testBit) = row % 2 ^ n := by
  induction n generalizing row with
  | zero => rw [Nat.pow_zero, Nat.mod_one]; rfl
  | succ n ih =>
      have hhalf : row.testBit ∘ Nat.succ = (row / 2).testBit := funext row.testBit_succ
      rw [List.range_succ_eq_map, List.map_cons, List.map_map, hhalf, bitsToNat, ih,
        Nat.pow_succ', Nat.mod_mul, Nat.toNat_testBit, Nat.pow_zero, Nat.div_one]

/-- The digits of a row stand for its number. -/
theorem bitsToNat_assignment {row n : Nat} (h : row < 2 ^ n) :
    bitsToNat (assignment row n).reverse = row := by
  rw [reverse_assignment, bitsToNat_testBits, Nat.mod_eq_of_lt h]

theorem length_assignment (row n : Nat) : (assignment row n).length = n := by simp [assignment]

/-- One more column shows one more digit in front of the others. -/
theorem assignment_succ (row n : Nat) :
    assignment row (n + 1) = row.testBit n :: assignment row n := by
  rw [assignment, assignment, List.range_succ_eq_map, List.map_cons, List.map_map]
  refine congrArg (row.testBit n :: ·) (List.map_congr_left fun j _ => ?_)
  rw [Function.comp_apply, Nat.succ_eq_add_one, Nat.add_sub_add_right]

/-- Where a column stands, a row has this digit. -/
theorem getElem?_assignment {row n j : Nat} (h : j < n) :
    (assignment row n)[j]? = some (row.testBit (n - j - 1)) := by
  rw [assignment, List.getElem?_map, List.getElem?_range h, Option.map_some]

/-- Any bits are the digits of a row. -/
theorem exists_row (bits : List Bool) :
    ∃ row < 2 ^ bits.length, assignment row bits.length = bits := by
  refine ⟨Nat.ofBits fun j : Fin bits.length => bits[bits.length - j - 1],
    Nat.ofBits_lt_two_pow _, List.ext_getElem (length_assignment _ _) fun i _ hi => ?_⟩
  have hback : bits.length - (bits.length - i - 1) - 1 = i := by omega
  simp only [assignment, List.getElem_map, List.getElem_range]
  rw [Nat.testBit_ofBits_lt _ _ (by omega : bits.length - i - 1 < bits.length)]
  simp only [hback]

/-- A row gives each name the digit of the first column whose name it is. -/
theorem Expr.rowValue_eq_listedValue (names : List String) (row : Nat) : rowValue names row =
    listedValue names fun j => (assignment row names.length)[j]?.getD false := by
  funext v
  rw [rowValue, listedValue_eq]
  cases hj : column? names v with
  | none => rfl
  | some j =>
      rw [Option.map_some, Option.getD_some, getElem?_assignment (lt_length_of_column hj),
        Option.getD_some]

/-- The value of an expression for the bits of named columns. A variable has the bit of the first
column whose name it is in any case of letters, and is false if there is none. -/
def Expr.valueUnder (e : Expr) (names : List String) (bits : List Bool) : Bool :=
  e.eval (listedValue names fun j => bits[j]?.getD false)

/-- The truth column of an expression shows its value for the digits of each row. -/
theorem Expr.getElem?_truthColumn {e : Expr} {names : List String} {row : Nat} {on : Bool} :
    (e.truthColumn names)[row]? = some on ↔
      row < 2 ^ names.length ∧ e.valueUnder names (assignment row names.length) = on := by
  rw [truthColumn, Nat.one_shiftLeft, List.getElem?_map, Option.map_eq_some_iff]
  simp only [List.getElem?_eq_some_iff, List.length_range, List.getElem_range, valueUnder,
    ← rowValue_eq_listedValue]
  constructor
  · rintro ⟨_, ⟨hrow, rfl⟩, hon⟩
    exact ⟨hrow, hon⟩
  · rintro ⟨hrow, hon⟩
    exact ⟨row, ⟨hrow, rfl⟩, hon⟩

/-- If all variables are listed, by names that can be written, an expression has the value for the
bits of the columns that it has for the values of its variables. -/
theorem Expr.valueUnder_map {e : Expr} {names : List String} (hnames : ∀ v ∈ names, IsName v)
    (hlisted : ∀ v ∈ e.occurrences, v ∈ names) (value : String → Bool) :
    e.valueUnder names (names.map value) = e.eval value := by
  refine eval_congr fun v hv => ?_
  obtain ⟨i, hi, hplace⟩ := exists_column hnames (hlisted v hv)
  rw [listedValue_eq, hi, Option.map_some, Option.getD_some, List.getElem?_map, hplace]
  rfl

/-! ## Numbered lists -/

/-- What is made from numbers in order is numbered by them. -/
theorem zipIdx_map_range {α : Type} (f : Nat → α) (n : Nat) :
    ((List.range n).map f).zipIdx = (List.range n).map fun i => (f i, i) :=
  List.ext_getElem (by simp) fun i _ _ => by simp

variable {α : Type} (p : α × Nat → Bool) (xs : List α)

/-- The numbers of what is singled out are in increasing order. -/
theorem pairwise_numbers : ((xs.zipIdx.filter p).map (·.2)).Pairwise (· < ·) := by
  have hnumbers : xs.zipIdx.map (·.2) = List.range xs.length := by
    rw [List.zipIdx_map_snd, List.range_eq_range']
  exact List.pairwise_lt_range.sublist (hnumbers ▸ List.filter_sublist.map _)

/-- The numbers of what is singled out and those of the rest are all numbers once. -/
theorem perm_numbers : ((xs.zipIdx.filter p).map (·.2) ++
    (xs.zipIdx.filter fun x => !p x).map (·.2)).Perm (List.range xs.length) := by
  rw [← List.map_append, List.range_eq_range', ← List.zipIdx_map_snd 0 xs]
  exact (List.filter_append_perm p xs.zipIdx).map _

end LogicCircuit
