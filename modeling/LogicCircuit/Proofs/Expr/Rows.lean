import LogicCircuit.Proofs.Expr.Packing

/-!
# Rows and masks

A packed table counts its masks from the first variable, a truth column its rows from the last
one, so a row belongs to the mask that has the same digits in the opposite order (`Reversal`). Row
and mask give each variable the same value (`rowValue_eq_maskValue`), hence the two tables of an
expression list the same values in another order: the main result is `tables_agree_by_reversal`.
Which value that is, is said by `listedValue` from the list alone.
-/

namespace LogicCircuit

/-- A mask and a row of `n` digits have the same digits in opposite orders. -/
structure Reversal (n mask row : Nat) : Prop where
  mask_lt : mask < 2 ^ n
  row_lt : row < 2 ^ n
  digit : ∀ i < n, row.testBit (n - i - 1) = mask.testBit i

namespace Reversal

variable {n mask row row' : Nat}

theorem symm (h : Reversal n mask row) : Reversal n row mask := by
  refine ⟨h.row_lt, h.mask_lt, fun i hi => ?_⟩
  have hback : n - (n - i - 1) - 1 = i := by omega
  rw [← h.digit (n - i - 1) (by omega), hback]

/-- A mask belongs to one row only. -/
theorem unique (h : Reversal n mask row) (h' : Reversal n mask row') : row = row' := by
  refine Nat.eq_of_testBit_eq fun j => ?_
  rcases Nat.lt_or_ge j n with hj | hj
  · rw [← h.symm.digit j hj, ← h'.symm.digit j hj]
  · have hhigh : ∀ {r}, r < 2 ^ n → r.testBit j = false := fun hr =>
      Nat.testBit_lt_two_pow (Nat.lt_of_lt_of_le hr (Nat.pow_le_pow_right Nat.two_pos hj))
    rw [hhigh h.row_lt, hhigh h'.row_lt]

end Reversal

/-- The digits of a mask in the opposite order are a row. -/
theorem exists_reversal {n mask : Nat} (hmask : mask < 2 ^ n) : ∃ row, Reversal n mask row := by
  refine ⟨Nat.ofBits fun j : Fin n => mask.testBit (n - j - 1), hmask, Nat.ofBits_lt_two_pow _,
    fun i hi => ?_⟩
  have hback : n - (n - i - 1) - 1 = i := by omega
  rw [Nat.testBit_ofBits_lt _ _ (by omega : n - i - 1 < n), hback]

namespace Expr

variable {a b : Expr} {names : List String} {mask row : Nat}

/-! ## Values of variables -/

/-- The value of a name if the listed names have the values `bit 0`, `bit 1` and so on. The first
that differs at most in the case of letters counts; a name that is not listed is false. -/
def listedValue : List String → (Nat → Bool) → String → Bool
  | [], _, _ => false
  | w :: names, bit, v =>
    if Text.sameLetters w v then bit 0 else listedValue names (fun i => bit (i + 1)) v

/-- A name has the bit at its place in the list, if it has one. -/
theorem listedValue_eq (names : List String) (bit : Nat → Bool) (v : String) :
    listedValue names bit v = ((column? names v).map bit).getD false := by
  unfold column?
  induction names generalizing bit with
  | nil => rfl
  | cons w names ih =>
      rw [listedValue, List.findIdx?_cons]
      split
      case isTrue => rfl
      case isFalse =>
        rw [ih, Option.map_map]
        rfl

/-- A mask gives each name the value that the list and its bits say. -/
theorem maskValue_eq_listedValue (names : List String) (mask : Nat) :
    maskValue names mask = listedValue names mask.testBit :=
  funext fun v => (listedValue_eq names mask.testBit v).symm

/-- A listed name has a place in the list. -/
theorem lt_length_of_column {v : String} {j : Nat} (h : column? names v = some j) :
    j < names.length :=
  (List.findIdx?_eq_some_iff_getElem.1 h).1

/-- A row gives the variables the values of its mask. -/
theorem rowValue_eq_maskValue (h : Reversal names.length mask row) :
    rowValue names row = maskValue names mask := by
  funext v
  unfold rowValue maskValue
  cases hj : column? names v with
  | none => rfl
  | some j => exact h.digit j (lt_length_of_column hj)

/-! ## Tables -/

/-- Columns over one list of variables are equal exactly if the packed tables over it are. -/
theorem truthColumn_eq_iff_packed :
    a.truthColumn names = b.truthColumn names ↔ a.packed names = b.packed names := by
  rw [packed_eq_iff]
  simp only [truthColumn, Nat.one_shiftLeft, List.map_inj_left, List.mem_range]
  constructor
  · intro h mask hmask
    obtain ⟨row, hrow⟩ := exists_reversal hmask
    rw [← rowValue_eq_maskValue hrow]
    exact h row hrow.row_lt
  · intro h row hrow
    obtain ⟨mask, hmask⟩ := exists_reversal hrow
    rw [rowValue_eq_maskValue hmask.symm]
    exact h mask hmask.row_lt

/-- The packed table of an expression and its truth column list the same values, one by mask and
the other by row. They have an entry for each mask and each row, every mask belongs to exactly one
row, and there both tables hold the value of the expression for the values that the mask gives to
the listed names. -/
theorem tables_agree_by_reversal (e : Expr) (names : List String) :
    (e.packed names).bits.length = 2 ^ names.length ∧
    (e.truthColumn names).length = 2 ^ names.length ∧
    (∀ mask < 2 ^ names.length, ∃! row, Reversal names.length mask row) ∧
    ∀ mask row, Reversal names.length mask row →
      (e.packed names).bits[mask]? = some (e.eval (listedValue names mask.testBit)) ∧
      (e.truthColumn names)[row]? = some (e.eval (listedValue names mask.testBit)) := by
  refine ⟨?_, ?_, fun mask hmask => ?_, fun mask row h => ⟨?_, ?_⟩⟩
  · rw [bits_packed, List.length_map, List.length_range]
  · rw [truthColumn, List.length_map, List.length_range, Nat.one_shiftLeft]
  · obtain ⟨row, hrow⟩ := exists_reversal hmask
    exact ⟨row, hrow, fun row' hrow' => hrow'.unique hrow⟩
  · rw [bits_packed, ← maskValue_eq_listedValue, List.getElem?_map,
      List.getElem?_range h.mask_lt, Option.map_some]
  · rw [truthColumn, ← maskValue_eq_listedValue, ← rowValue_eq_maskValue h, Nat.one_shiftLeft,
      List.getElem?_map, List.getElem?_range h.row_lt, Option.map_some]

/-- The first variable is listed twice and in small letters, the second is not listed, and one of
the listed names does not occur. -/
theorem tables_agree_by_reversal_listed_twice :
    let e : Expr := binary .nor (not (var "A")) (binary .xor (var "B") (var "C"))
    let names := ["c", "X", "a", "A"]
    (∃! row, Reversal names.length 4 row) ∧ Reversal names.length 4 2 ∧
      (e.packed names).bits[4]? = some true ∧ (e.truthColumn names)[2]? = some true := by
  intro e names
  have hreversal : Reversal names.length 4 2 := ⟨by decide, by decide, by decide⟩
  obtain ⟨-, -, hrow, hagree⟩ := tables_agree_by_reversal e names
  obtain ⟨hpacked, hcolumn⟩ := hagree 4 2 hreversal
  exact ⟨hrow 4 hreversal.mask_lt, hreversal, hpacked, hcolumn⟩

end Expr

end LogicCircuit
