import LogicCircuit.Expr.Columns
import LogicCircuit.Proofs.Expr.RoundTrip

/-!
# Packed tables

A packed table lists the values of an expression by mask (`bits_packed`), where a mask gives each
variable the bit at its place. So two tables over one list are equal exactly if the expressions
agree for every mask. Names that can be written differ in more than the case of letters, hence
every assignment of such names is given by a mask (`exists_mask`), and comparing the tables over
the variables of both decides whether two expressions are equivalent: `equivalence_decided`.
-/

namespace LogicCircuit.Packed

/-! ## What is taken of packed tables -/

/-- A constant has the same bit for each mask. -/
theorem bits_ofConst (n : Nat) (on : Bool) :
    (ofConst n on).bits = (List.range (2 ^ n)).map fun _ => on := by
  rw [ofConst, Nat.one_shiftLeft, List.map_const', List.length_range]

/-- A variable has its bit of each mask. -/
theorem bits_ofVariable (n i : Nat) :
    (ofVariable n i).bits = (List.range (2 ^ n)).map (·.testBit i) := by
  rw [ofVariable, Nat.one_shiftLeft]

/-- A complement has the other bit for each mask. -/
theorem bits_complement (p : Packed) : p.complement.bits = p.bits.map (!·) := rfl

/-- Tables are joined mask by mask. -/
theorem bits_combine (op : BinaryOp) (p q : Packed) :
    (combine op p q).bits = List.zipWith op.apply p.bits q.bits := by
  cases op with
  | and | or | xor => rfl
  | nand | nor => exact List.map_zipWith

/-- Tables are equal if their bits are. -/
theorem eq_iff_bits_eq {p q : Packed} : p = q ↔ p.bits = q.bits :=
  ⟨congrArg bits, congrArg mk⟩

end LogicCircuit.Packed

namespace LogicCircuit.Expr

variable {e a b : Expr} {names : List String} {v w : String}

/-- The value of a variable for a mask: the bit at the place of the variable. -/
def maskValue (names : List String) (mask : Nat) (name : String) : Bool :=
  ((column? names name).map mask.testBit).getD false

/-- The value of an expression depends only on the values of its variables. -/
theorem eval_congr {value value' : String → Bool} (h : ∀ v ∈ e.occurrences, value v = value' v) :
    e.eval value = e.eval value' := by
  induction e with
  | var name => exact h name (List.mem_singleton_self name)
  | const on => rfl
  | not e ih => rw [eval, eval, ih h]
  | binary op a b iha ihb =>
      rw [eval, eval, iha fun v hv => h v (List.mem_append_left _ hv),
        ihb fun v hv => h v (List.mem_append_right _ hv)]

/-! ## Tables of expressions -/

/-- A packed table has the value of the expression for each mask. -/
theorem bits_packed (e : Expr) (names : List String) : (e.packed names).bits =
    (List.range (2 ^ names.length)).map fun mask => e.eval (maskValue names mask) := by
  induction e with
  | var name =>
      unfold packed
      cases hcolumn : column? names name with
      | none =>
          simp only [Packed.bits_ofConst, eval, maskValue, hcolumn, Option.map_none,
            Option.getD_none]
      | some i =>
          simp only [Packed.bits_ofVariable, eval, maskValue, hcolumn, Option.map_some,
            Option.getD_some]
  | const on => exact Packed.bits_ofConst names.length on
  | not e ih =>
      rw [packed, Packed.bits_complement, ih, List.map_map]
      rfl
  | binary op a b iha ihb =>
      rw [packed, Packed.bits_combine, iha, ihb, List.zipWith_map, List.zipWith_self]
      rfl

/-- Tables over one list are equal exactly if the expressions agree for each mask. -/
theorem packed_eq_iff : a.packed names = b.packed names ↔
    ∀ mask < 2 ^ names.length, a.eval (maskValue names mask) = b.eval (maskValue names mask) := by
  rw [Packed.eq_iff_bits_eq, bits_packed, bits_packed, List.map_inj_left]
  simp only [List.mem_range]

/-! ## Assignments as masks -/

/-- A name that can be written is in capitals. -/
theorem capitals_of_isName (hv : IsName v) : Text.capitals v = v := by
  rw [Text.capitals, map_toUpper_of_isCapitalWord hv.1, String.ofList_toList]

/-- A name that can be written has its place where it is first listed. -/
theorem exists_column (hnames : ∀ v ∈ names, IsName v) (hv : v ∈ names) :
    ∃ i, column? names v = some i ∧ names[i]? = some v := by
  have hsome : (column? names v).isSome := by
    rw [column?, List.findIdx?_isSome, List.any_eq_true]
    exact ⟨v, hv, beq_self_eq_true _⟩
  obtain ⟨i, hi⟩ := Option.isSome_iff_exists.1 hsome
  obtain ⟨hlt, hsame, -⟩ := List.findIdx?_eq_some_iff_getElem.1 hi
  have hword : Text.capitals names[i] = Text.capitals v := by simpa [Text.sameLetters] using hsame
  rw [capitals_of_isName (hnames _ (List.getElem_mem hlt)), capitals_of_isName (hnames v hv)]
    at hword
  exact ⟨i, hi, (List.getElem?_eq_getElem hlt).trans (congrArg some hword)⟩

/-- Every assignment of names that can be written is given by a mask. -/
theorem exists_mask (hnames : ∀ v ∈ names, IsName v) (value : String → Bool) :
    ∃ mask < 2 ^ names.length, ∀ v ∈ names, maskValue names mask v = value v := by
  refine ⟨Nat.ofBits fun i : Fin names.length => value names[i], Nat.ofBits_lt_two_pow _,
    fun v hv => ?_⟩
  obtain ⟨i, hcolumn, hi⟩ := exists_column hnames hv
  obtain ⟨hlt, rfl⟩ := List.getElem?_eq_some_iff.1 hi
  rw [maskValue, hcolumn, Option.map_some, Option.getD_some, Nat.testBit_ofBits_lt _ _ hlt]
  rfl

/-- Comparing packed tables decides whether expressions agree, if their names can be written. -/
theorem equivalent_iff (ha : a.WellNamed) (hb : b.WellNamed) :
    a.equivalent b = true ↔ ∀ value : String → Bool, a.eval value = b.eval value := by
  unfold equivalent
  rw [decide_eq_true_iff, packed_eq_iff]
  set names :=
    (Roster.ofList (a.occurrences ++ b.occurrences) : Roster fun v : String => v).entries
    with hlist
  have hmem : ∀ {v}, v ∈ names ↔ v ∈ a.occurrences ∨ v ∈ b.occurrences := fun {v} => by
    rw [hlist, Roster.mem_entries_ofList, List.mem_append]
  refine ⟨fun h value => ?_, fun h mask _ => h _⟩
  obtain ⟨mask, hmask, hvalue⟩ := exists_mask (fun v hv => (hmem.1 hv).elim (ha v) (hb v)) value
  calc a.eval value
      = a.eval (maskValue names mask) := eval_congr fun v hv => (hvalue v (hmem.2 (.inl hv))).symm
    _ = b.eval (maskValue names mask) := h mask hmask
    _ = b.eval value := eval_congr fun v hv => hvalue v (hmem.2 (.inr hv))

/-- Whether two texts spell equivalent expressions is decided. The reason why the first cannot be
parsed is reported first, then that of the second. Where both are parsed, the answer is whether
the two expressions have the same value for every assignment of values to names, those included
that only one of them has. -/
theorem equivalence_decided (s t : String) :
    (∀ reason, parse s = .error reason → textsEquivalent s t = .error reason) ∧
    (∀ a reason, parse s = .ok a → parse t = .error reason →
      textsEquivalent s t = .error reason) ∧
    ∀ a b, parse s = .ok a → parse t = .ok b → ∃ same, textsEquivalent s t = .ok same ∧
      (same = true ↔ ∀ value : String → Bool, a.eval value = b.eval value) := by
  refine ⟨fun reason hs => ?_, fun a reason hs ht => ?_,
    fun a b hs ht => ⟨a.equivalent b, ?_, ?_⟩⟩
  · rw [textsEquivalent, hs]
  · rw [textsEquivalent, hs, ht]
  · rw [textsEquivalent, hs, ht]
  · exact equivalent_iff (wellNamed_of_parse hs) (wellNamed_of_parse ht)

/-- A variable that makes no difference may be in one of the texts only, and one that makes a
difference may not. -/
theorem equivalence_decided_absorbed :
    let absorbed : Expr := binary .or (var "A") (binary .and (var "B") (not (var "B")))
    parse "A +" = .error .unexpectedEnd ∧ textsEquivalent "A +" "B (" = .error .unexpectedEnd ∧
    parse "a + b * !b" = .ok absorbed ∧
    textsEquivalent "a + b * !b" "A +" = .error .unexpectedEnd ∧
    parse "A" = .ok (var "A") ∧ textsEquivalent "a + b * !b" "A" = .ok true ∧
    parse "B" = .ok (var "B") ∧ textsEquivalent "A" "B" = .ok false := by
  intro absorbed
  have hcut : parse "A +" = .error .unexpectedEnd := by decide +kernel
  have habsorbed : parse "a + b * !b" = .ok absorbed := by decide +kernel
  have hA : parse "A" = .ok (var "A") := by decide +kernel
  have hB : parse "B" = .ok (var "B") := by decide +kernel
  obtain ⟨same, hsame, hiff⟩ := (equivalence_decided "a + b * !b" "A").2.2 _ _ habsorbed hA
  have hagree : same = true := hiff.2 fun value => by
    simp only [absorbed, eval, BinaryOp.apply, BinaryOp.gate, Gate.apply, Bool.and_not_self,
      Bool.or_false]
  obtain ⟨apart, hapart, hiff'⟩ := (equivalence_decided "A" "B").2.2 _ _ hA hB
  have hdiffer : apart = false := by
    refine Bool.eq_false_iff.2 fun h => ?_
    have hvalue := hiff'.1 h fun name => name == "A"
    simp [eval] at hvalue
  exact ⟨hcut, (equivalence_decided "A +" "B (").1 _ hcut, habsorbed,
    (equivalence_decided "a + b * !b" "A +").2.1 _ _ habsorbed hcut, hA, hagree ▸ hsame, hB,
    hdiffer ▸ hapart⟩

end LogicCircuit.Expr
