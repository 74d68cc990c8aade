import LogicCircuit.Expr.Simplify

/-!
# What simplification keeps

`Expr.simplify` rewrites each operator above operands that are simplified already, so all it does
is done by `Expr.negated` and `Expr.combined`. What either of them can do is said once
(`negated_cases`, `combined_cases`). No rewriting makes an expression larger in any respect
(`NoLarger`), and since operands may be replaced by smaller ones, neither does simplification:
`simplify_keeps_value_and_size`.
-/

namespace LogicCircuit.Expr

variable {e f g a a' b b' : Expr} {op : BinaryOp} {value : String → Bool}

/-! ## One rewriting -/

/-- A negation is built, unless its operand is a negation as well; then both go. -/
theorem negated_cases (e : Expr) :
    (∀ f, e ≠ not f) ∧ e.negated = not e ∨ ∃ f, e = not f ∧ e.negated = f := by
  cases e with
  | not f => exact .inr ⟨f, rfl, rfl⟩
  | var | const | binary => exact .inl ⟨by simp, rfl⟩

/-- An operation is built, unless the operands are equal; then AND and OR leave one of them, and
XOR is constant. -/
theorem combined_cases (op : BinaryOp) (a b : Expr) :
    (a = b → op = .nand ∨ op = .nor) ∧ combined op a b = binary op a b ∨
      a = b ∧ ((op = .and ∨ op = .or) ∧ combined op a b = a ∨
        op = .xor ∧ combined op a b = const false) := by
  unfold combined
  split
  case isTrue hab =>
    cases op with
    | and => exact .inr ⟨hab, .inl ⟨.inl rfl, rfl⟩⟩
    | or => exact .inr ⟨hab, .inl ⟨.inr rfl, rfl⟩⟩
    | xor => exact .inr ⟨hab, .inr ⟨rfl, rfl⟩⟩
    | nand => exact .inl ⟨fun _ => .inl rfl, rfl⟩
    | nor => exact .inl ⟨fun _ => .inr rfl, rfl⟩
  case isFalse hab => exact .inl ⟨fun h => absurd h hab, rfl⟩

theorem eval_negated (e : Expr) (value : String → Bool) :
    e.negated.eval value = !e.eval value := by
  rcases e.negated_cases with ⟨-, h⟩ | ⟨f, rfl, h⟩
  · rw [h, eval]
  · rw [h, eval, Bool.not_not]

theorem eval_combined (op : BinaryOp) (a b : Expr) (value : String → Bool) :
    (combined op a b).eval value = op.apply (a.eval value) (b.eval value) := by
  rcases combined_cases op a b with ⟨-, h⟩ | ⟨rfl, ⟨hop, h⟩ | ⟨rfl, h⟩⟩
  · rw [h, eval]
  · rw [h]
    rcases hop with rfl | rfl
    · exact (Bool.and_self _).symm
    · exact (Bool.or_self _).symm
  · rw [h]
    exact (Bool.xor_self _).symm

/-- The simplified expression has the same value. -/
theorem eval_simplify (e : Expr) (value : String → Bool) :
    e.simplify.eval value = e.eval value := by
  induction e with
  | var name => rfl
  | const on => rfl
  | not e ih => rw [simplify, eval_negated, ih, eval]
  | binary op a b iha ihb => rw [simplify, eval_combined, iha, ihb, eval]

/-! ## Size -/

/-- An expression is no larger than another: it has none but its variables, no more operators and
no longer branches. -/
structure NoLarger (e f : Expr) : Prop where
  occurrences : e.occurrences ⊆ f.occurrences
  operators : e.operators ≤ f.operators
  depth : e.depth ≤ f.depth

namespace NoLarger

theorem refl (e : Expr) : NoLarger e e := ⟨fun _ h => h, Nat.le_refl _, Nat.le_refl _⟩

theorem trans (h : NoLarger e f) (h' : NoLarger f g) : NoLarger e g :=
  ⟨fun _ hv => h'.occurrences (h.occurrences hv), Nat.le_trans h.operators h'.operators,
    Nat.le_trans h.depth h'.depth⟩

theorem not (h : NoLarger e f) : NoLarger (not e) (not f) :=
  ⟨h.occurrences, Nat.add_le_add_left h.operators 1, Nat.add_le_add_left h.depth 1⟩

theorem binary (op : BinaryOp) (ha : NoLarger a a') (hb : NoLarger b b') :
    NoLarger (binary op a b) (binary op a' b') := by
  have hoperators := ha.operators
  have hoperators' := hb.operators
  have hdepth := ha.depth
  have hdepth' := hb.depth
  refine ⟨fun v hv => ?_, ?_, ?_⟩
  · exact List.mem_append.2 ((List.mem_append.1 hv).imp (ha.occurrences ·) (hb.occurrences ·))
  · simp only [Expr.operators]
    omega
  · simp only [Expr.depth]
    omega

/-- An operand is no larger than a negation. -/
theorem of_not (e : Expr) : NoLarger e (.not e) :=
  ⟨fun _ h => h, Nat.le_add_left _ 1, Nat.le_add_left _ 1⟩

/-- The first operand is no larger than an operation. -/
theorem of_binary (op : BinaryOp) (a b : Expr) : NoLarger a (.binary op a b) := by
  refine ⟨fun v hv => List.mem_append_left _ hv, ?_, ?_⟩
  · simp only [Expr.operators]
    omega
  · simp only [Expr.depth]
    omega

/-- Nothing is smaller than a constant. -/
theorem of_const (on : Bool) (e : Expr) : NoLarger (.const on) e :=
  ⟨fun _ hv => absurd hv List.not_mem_nil, Nat.zero_le _, Nat.zero_le _⟩

end NoLarger

theorem noLarger_negated (e : Expr) : NoLarger e.negated (not e) := by
  rcases e.negated_cases with ⟨-, h⟩ | ⟨f, rfl, h⟩
  · rw [h]
    exact .refl _
  · rw [h]
    exact (NoLarger.of_not f).trans (.of_not _)

theorem noLarger_combined (op : BinaryOp) (a b : Expr) :
    NoLarger (combined op a b) (binary op a b) := by
  rcases combined_cases op a b with ⟨-, h⟩ | ⟨-, ⟨-, h⟩ | ⟨-, h⟩⟩
  · rw [h]
    exact .refl _
  · rw [h]
    exact .of_binary op a b
  · rw [h]
    exact .of_const false _

/-- The simplified expression is no larger. -/
theorem noLarger_simplify (e : Expr) : NoLarger e.simplify e := by
  induction e with
  | var name => exact .refl _
  | const on => exact .refl _
  | not e ih => exact (noLarger_negated _).trans ih.not
  | binary op a b iha ihb => exact (noLarger_combined op _ _).trans (.binary op iha ihb)

/-- Simplification keeps the value of an expression whatever the values of its variables are. The
result has none but its variables, no more operators and no longer branches. -/
theorem simplify_keeps_value_and_size (e : Expr) :
    (∀ value : String → Bool, e.simplify.eval value = e.eval value) ∧
      e.simplify.variableNames ⊆ e.variableNames ∧ e.simplify.operators ≤ e.operators ∧
      e.simplify.depth ≤ e.depth := by
  have hsize := e.noLarger_simplify
  refine ⟨e.eval_simplify, fun v hv => ?_, hsize.operators, hsize.depth⟩
  exact mem_variableNames_iff.2 (hsize.occurrences (mem_variableNames_iff.1 hv))

/-- A double negation that appears when the operand is simplified goes as well. -/
example : simplify (.not (.binary .and (.not (.var "A")) (.not (.var "A")))) = .var "A" := by
    decide

end LogicCircuit.Expr
