import LogicCircuit.Proofs.Expr.RoundTrip
import LogicCircuit.Proofs.Expr.Simplification

/-!
# Normal forms

An expression is in normal form if none of its subterms is a redex: a double negation, or an AND,
OR or XOR of equal operands. A rewriting above operands in normal form leaves none, also where it
uncovers a part of an operand (`isNormal_negated`, `isNormal_combined`), so one pass from the
operands up suffices (`isNormal_simplify`). Where there is no redex nothing is rewritten
(`simplify_eq_self`). The main result `simplify_reaches_normal_form` carries this over to texts:
the printed normal form is read back and printed again as it is.
-/

namespace LogicCircuit.Expr

/-- What a rewriting removes: a double negation, or an AND, OR or XOR of equal operands. -/
inductive Redex : Expr → Prop where
  | doubleNot (e : Expr) : Redex (not (not e))
  | and (e : Expr) : Redex (binary .and e e)
  | or (e : Expr) : Redex (binary .or e e)
  | xor (e : Expr) : Redex (binary .xor e e)

/-- An expression occurs in another one, or is that one. -/
inductive Subterm (d : Expr) : Expr → Prop where
  | self : Subterm d d
  | not {e : Expr} : Subterm d e → Subterm d (not e)
  | left {op : BinaryOp} {a b : Expr} : Subterm d a → Subterm d (binary op a b)
  | right {op : BinaryOp} {a b : Expr} : Subterm d b → Subterm d (binary op a b)

/-- No subterm is a redex. -/
def IsNormal (e : Expr) : Prop := ∀ d, Subterm d e → ¬ Redex d

variable {a b d e : Expr} {op : BinaryOp} {v : String}

/-- What occurs in a part occurs in the whole. -/
theorem Subterm.trans (h : Subterm a d) (hde : Subterm d e) : Subterm a e := by
  induction hde with
  | self => exact h
  | not _ ih => exact ih.not
  | left _ ih => exact ih.left
  | right _ ih => exact ih.right

/-- The variables that occur as subterms are those that are written. -/
theorem subterm_var_iff : Subterm (var v) e ↔ v ∈ e.occurrences := by
  constructor
  · intro h
    induction h with
    | self => exact List.mem_singleton_self v
    | not _ ih => exact ih
    | left _ ih => exact List.mem_append_left _ ih
    | right _ ih => exact List.mem_append_right _ ih
  · intro h
    induction e with
    | var name => exact List.mem_singleton.1 h ▸ .self
    | const on => cases h
    | not e ih => exact (ih h).not
    | binary op a b iha ihb =>
        rcases List.mem_append.1 h with h | h
        · exact (iha h).left
        · exact (ihb h).right

/-! ## Normal forms by their operands -/

theorem isNormal_var (name : String) : (var name).IsNormal := by
  rintro d ⟨⟩ ⟨⟩

theorem isNormal_const (on : Bool) : (const on).IsNormal := by
  rintro d ⟨⟩ ⟨⟩

/-- A negation is in normal form exactly if its operand is, and is no negation. -/
theorem isNormal_not_iff : (not e).IsNormal ↔ e.IsNormal ∧ ∀ f, e ≠ not f := by
  constructor
  · intro h
    refine ⟨fun d hd => h d hd.not, ?_⟩
    rintro f rfl
    exact h _ .self (.doubleNot f)
  · rintro ⟨he, hnot⟩ d hd hredex
    cases hd with
    | self =>
        cases hredex with
        | doubleNot f => exact hnot f rfl
    | not hd => exact he d hd hredex

/-- An operation is in normal form exactly if its operands are, and only NAND and NOR may have
equal ones. -/
theorem isNormal_binary_iff : (binary op a b).IsNormal ↔
    a.IsNormal ∧ b.IsNormal ∧ (a = b → op = .nand ∨ op = .nor) := by
  constructor
  · intro h
    refine ⟨fun d hd => h d hd.left, fun d hd => h d hd.right, ?_⟩
    rintro rfl
    cases op with
    | nand => exact .inl rfl
    | nor => exact .inr rfl
    | and => exact absurd (.and a) (h _ .self)
    | or => exact absurd (.or a) (h _ .self)
    | xor => exact absurd (.xor a) (h _ .self)
  · rintro ⟨ha, hb, hequal⟩ d hd hredex
    cases hd with
    | self => cases hredex <;> simp at hequal
    | left hd => exact ha d hd hredex
    | right hd => exact hb d hd hredex

/-! ## Simplification -/

/-- A negation above a normal form leaves a normal form, also where it takes a negation away. -/
theorem isNormal_negated (h : e.IsNormal) : e.negated.IsNormal := by
  rcases e.negated_cases with ⟨hnot, hresult⟩ | ⟨f, rfl, hresult⟩
  · rw [hresult]
    exact isNormal_not_iff.2 ⟨h, hnot⟩
  · rw [hresult]
    exact (isNormal_not_iff.1 h).1

/-- An operator above normal forms leaves a normal form. -/
theorem isNormal_combined (ha : a.IsNormal) (hb : b.IsNormal) : (combined op a b).IsNormal := by
  rcases combined_cases op a b with ⟨hequal, hresult⟩ | ⟨-, ⟨-, hresult⟩ | ⟨-, hresult⟩⟩
  · rw [hresult]
    exact isNormal_binary_iff.2 ⟨ha, hb, hequal⟩
  · rwa [hresult]
  · rw [hresult]
    exact isNormal_const false

/-- The simplified expression is in normal form. -/
theorem isNormal_simplify (e : Expr) : e.simplify.IsNormal := by
  induction e with
  | var name => exact isNormal_var name
  | const on => exact isNormal_const on
  | not e ih => exact isNormal_negated ih
  | binary op a b iha ihb => exact isNormal_combined iha ihb

/-- A normal form is left as it is. -/
theorem simplify_eq_self (h : e.IsNormal) : e.simplify = e := by
  induction e with
  | var name => rfl
  | const on => rfl
  | not e ih =>
      obtain ⟨he, hnot⟩ := isNormal_not_iff.1 h
      rw [simplify, ih he]
      rcases e.negated_cases with ⟨-, hresult⟩ | ⟨f, rfl, -⟩
      · exact hresult
      · exact absurd rfl (hnot f)
  | binary op a b iha ihb =>
      obtain ⟨ha, hb, hequal⟩ := isNormal_binary_iff.1 h
      rw [simplify, iha ha, ihb hb]
      rcases combined_cases op a b with ⟨-, hresult⟩ | ⟨rfl, hop⟩
      · exact hresult
      · -- equal operands that are rewritten are no normal form
        rcases hequal rfl with rfl | rfl <;> simp at hop

/-- Nothing is rewritten exactly where there is no redex. -/
theorem simplify_eq_self_iff : e.simplify = e ↔ e.IsNormal :=
  ⟨fun h => h ▸ e.isNormal_simplify, simplify_eq_self⟩

instance (e : Expr) : Decidable e.IsNormal := decidable_of_iff _ simplify_eq_self_iff

/-- Equal operands of a NAND stay, also below a negation. -/
example : (not (binary .nand (var "A") (var "A"))).IsNormal := by decide

/-! ## Texts -/

/-- Simplification invents no names. -/
theorem wellNamed_simplify (h : e.WellNamed) : e.simplify.WellNamed := fun name hname =>
  h name (e.noLarger_simplify.occurrences hname)

/-- A text of an expression is simplified to the printed form of its normal form. -/
theorem simplifyText_of_parse {text : String} (h : parse text = .ok e) :
    simplifyText text = .ok e.simplify.text := by
  rw [simplifyText, h]
  rfl

/-- One pass of simplification reaches a normal form. The result has no redex in it, a second pass
changes nothing, and the first changes nothing exactly if there was no redex. Every text that is
parsed is simplified to a text which is simplified to itself. -/
theorem simplify_reaches_normal_form :
    (∀ e : Expr, e.simplify.IsNormal) ∧ (∀ e : Expr, e.simplify.simplify = e.simplify) ∧
    (∀ e : Expr, e.simplify = e ↔ e.IsNormal) ∧
    ∀ (text : String) (e : Expr), parse text = .ok e →
      ∃ s, simplifyText text = .ok s ∧ simplifyText s = .ok s := by
  have hstable : ∀ e : Expr, e.simplify.simplify = e.simplify := fun e =>
    simplify_eq_self e.isNormal_simplify
  refine ⟨isNormal_simplify, hstable, fun e => simplify_eq_self_iff, fun text e hparse => ?_⟩
  have hread : parse e.simplify.text = .ok e.simplify :=
    parse_text (wellNamed_simplify (wellNamed_of_parse hparse))
  refine ⟨e.simplify.text, simplifyText_of_parse hparse, ?_⟩
  rw [simplifyText_of_parse hread, hstable]

/-- Each rewriting uncovers the next one: an XOR becomes a constant, which makes the operands of
the AND equal, and what remains of it stands below two negations. -/
theorem simplify_reaches_normal_form_nested :
    let e := not (binary .and (not (binary .xor (var "A") (var "A"))) (not (const false)))
    parse "!(!(a XOR A) * NOT 0)" = .ok e ∧ simplifyText "!(!(a XOR A) * NOT 0)" = .ok "0" ∧
      simplifyText "0" = .ok "0" := by
  intro e
  have hparse : parse "!(!(a XOR A) * NOT 0)" = .ok e := by decide +kernel
  obtain ⟨s, hsimplified, hstable⟩ := simplify_reaches_normal_form.2.2.2 _ e hparse
  have hzero : simplifyText "!(!(a XOR A) * NOT 0)" = .ok "0" := by
    rw [simplifyText, hparse]
    rfl
  obtain rfl : s = "0" := Except.ok.inj (hsimplified.symm.trans hzero)
  exact ⟨hparse, hsimplified, hstable⟩

end LogicCircuit.Expr
