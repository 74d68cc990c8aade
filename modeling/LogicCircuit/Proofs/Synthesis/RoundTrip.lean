import LogicCircuit.Expr.Columns
import LogicCircuit.Proofs.Expr.RoundTrip
import LogicCircuit.Proofs.Extraction.Meaning
import LogicCircuit.Proofs.Synthesis.Building

/-!
# Reading a built circuit back

Extraction undoes synthesis up to the spelling of NAND and NOR. The spelled expression has the
variables of the original one in their order, and the same packed table over any variables, so as
texts the two are equivalent.
-/

namespace LogicCircuit

/-! ## Spelling out NAND and NOR -/

namespace BinaryOp

theorem occurrences_spell (op : BinaryOp) (a b : Expr) :
    (op.spell a b).occurrences = a.occurrences ++ b.occurrences := by
  cases op <;> rfl

/-- The packed table of a negated operation is that of the operator for it. -/
theorem packed_spell (op : BinaryOp) (a b : Expr) (names : List String) :
    (op.spell a b).packed names = .combine op (a.packed names) (b.packed names) := by
  cases op <;> rfl

end BinaryOp

namespace Expr

/-- The variables stay where they are. -/
@[simp] theorem occurrences_spelled (e : Expr) : e.spelled.occurrences = e.occurrences := by
  induction e with
  | var name => rfl
  | const on => rfl
  | not e ih => exact ih
  | binary op a b iha ihb => rw [spelled, op.occurrences_spell, iha, ihb, occurrences]

theorem packed_spelled (e : Expr) (names : List String) :
    e.spelled.packed names = e.packed names := by
  induction e with
  | var name => rfl
  | const on => rfl
  | not e ih => rw [spelled, packed, ih, packed]
  | binary op a b iha ihb => rw [spelled, op.packed_spell, iha, ihb, packed]

/-- The spelled expression is equivalent to the original one. -/
theorem equivalent_spelled (e : Expr) : e.equivalent e.spelled = true := by
  simp [equivalent, packed_spelled]

/-- A text is equivalent to the printed form of what it is spelled as. -/
theorem textsEquivalent_spelled {s : String} {e : Expr} (h : parse s = .ok e) :
    textsEquivalent s e.spelled.text = .ok true := by
  have hnamed : e.spelled.WellNamed := by
    intro name hname
    exact wellNamed_of_parse h name (by simpa using hname)
  rw [textsEquivalent, h, parse_text hnamed]
  exact congrArg Except.ok e.equivalent_spelled

end Expr

namespace Synthesis

variable {e : Expr} {root : ComponentId} {c : Circuit}

/-- The bulb reads as the spelled expression. -/
theorem Realizes.expr?_outputName (h : Realizes e root c) :
    c.expr? outputName = some e.spelled := by
  obtain ⟨x, hx⟩ := h.bulb
  have hk : x.kind = .sink (.ofKind .bulb) := h.fits (r := .output) hx
  refine (Circuit.expr?_eq_some_iff h.wired).2 ⟨root, ⟨x, hx, ?_⟩, h.reads⟩
  rw [if_pos (by simp [hk, Kind.isSink]), h.driven]
  rfl

/-- The bulb is the first sink, since there is no other. -/
theorem Realizes.firstExpr?_eq (h : Realizes e root c) : c.firstExpr? = some e.spelled := by
  obtain ⟨x, hsinks, hx, -⟩ := h.exists_sinks_eq
  have hid : x.id = outputName := Roster.name_of_get? hx
  rw [Circuit.firstExpr?, hsinks, List.head?_cons, Option.bind_some, hid, h.expr?_outputName]

end Synthesis

/-- Extraction inverts synthesis. The bulb of the circuit for an expression reads as the
expression with every NAND and NOR spelled out. The circuit for a text has the printed form of
that expression as the text of its first sink, and the two texts are equivalent. -/
theorem extraction_inverts_synthesis (e : Expr) :
    (∃ c, Circuit.ofExpr e = .ok c ∧ c.expr? Synthesis.outputName = some e.spelled) ∧
    ∀ s, Expr.parse s = .ok e → ∃ c t, Circuit.ofExpr e = .ok c ∧
      c.firstExpr?.map (·.text) = some t ∧ t = e.spelled.text ∧
      Expr.textsEquivalent s t = .ok true := by
  obtain ⟨c, root, hbuilt, hc⟩ := Synthesis.exists_ofExpr e
  refine ⟨⟨c, hbuilt, hc.expr?_outputName⟩, fun s hparse => ?_⟩
  refine ⟨c, e.spelled.text, hbuilt, ?_, rfl, Expr.textsEquivalent_spelled hparse⟩
  rw [hc.firstExpr?_eq]
  rfl

/-- A negated operation with a repeated operand comes back as the negation of the operation. -/
theorem extraction_inverts_synthesis_nand :
    let inner : Expr := .binary .or (.var "A") (.const false)
    let e : Expr := .binary .nand (.var "A") inner
    (∃ c, Circuit.ofExpr e = .ok c ∧
      c.expr? "output-main" = some (.not (.binary .and (.var "A") inner))) ∧
    Expr.parse "a nand (a + 0)" = .ok e ∧ ∃ c t, Circuit.ofExpr e = .ok c ∧
      c.firstExpr?.map (·.text) = some t ∧ t = "NOT (A AND (A OR 0))" ∧
      Expr.textsEquivalent "a nand (a + 0)" t = .ok true := by
  intro inner e
  have hparse : Expr.parse "a nand (a + 0)" = .ok e := by decide +kernel
  have htext : e.spelled.text = "NOT (A AND (A OR 0))" := by decide +kernel
  obtain ⟨hread, hback⟩ := extraction_inverts_synthesis e
  exact ⟨hread, hparse, htext ▸ hback _ hparse⟩

end LogicCircuit
