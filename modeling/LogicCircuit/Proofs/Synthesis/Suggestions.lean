import LogicCircuit.Proofs.Analysis.Suggestions
import LogicCircuit.Proofs.Synthesis.Building

/-!
# What is suggested about a built circuit

In the circuit for an expression a component stands for one subterm alone (`StandsFor.unique`),
and a variable or constant has one component alone (`StandsFor.eq_of_isLeaf`). So an inverter on
an inverter stands for a double negation, and an AND or OR whose slots share a driver for an
operation on a variable or constant twice (`Shaped.suggests_iff`). In a normal form there is
neither: the main result is `simplified_circuit_has_no_suggestions`.
-/

namespace LogicCircuit

open LogicCircuit.Expr (Subterm)

namespace BinaryOp

theorem gate_injective : Function.Injective gate := by
  intro op op' h
  cases op <;> cases op' <;> first | rfl | cases h

theorem gate_ne_not (op : BinaryOp) : op.gate ≠ .not := by
  cases op <;> simp [gate]

end BinaryOp

namespace Synthesis

variable {c : Circuit} {id root a b : ComponentId} {e f : Expr} {s : Suggestion} {x : Component}
  {g : Gate}

/-! ## One expression for each component -/

/-- A gate stands for an expression with its operator on what its drivers stand for. -/
theorem StandsFor.gate_cases (h : StandsFor c id e) (hx : c.component? id = some x)
    (hk : x.kind = .gate g) :
    (∃ a f, e = .not f ∧ g = .not ∧ c.driversOf id = [some a] ∧ StandsFor c a f) ∨
    ∃ op a b f f', e = .binary op f f' ∧ g = op.gate ∧ c.driversOf id = [some a, some b] ∧
      StandsFor c a f ∧ StandsFor c b f' ∧ (a = b → f'.isLeaf) := by
  cases h with
  | var _ hx' hk' | const _ hx' hk' =>
      obtain rfl := Option.some.inj (hx.symm.trans hx')
      cases hk.symm.trans hk'
  | not hx' hk' hdrivers hstands =>
      obtain rfl := Option.some.inj (hx.symm.trans hx')
      exact .inl ⟨_, _, rfl, Kind.gate.inj (hk.symm.trans hk'), hdrivers, hstands⟩
  | binary hx' hk' hdrivers hstands hstands' hshared =>
      obtain rfl := Option.some.inj (hx.symm.trans hx')
      exact .inr ⟨_, _, _, _, _, rfl, Kind.gate.inj (hk.symm.trans hk'), hdrivers, hstands,
        hstands', hshared⟩

/-- A component stands for one expression alone. -/
theorem StandsFor.unique (h : StandsFor c id e) (h' : StandsFor c id f) : e = f := by
  induction h generalizing f with
  | var hid hx hk hlabel =>
      cases h' with
      | var hid' => exact congrArg Expr.var (inputName_injective (hid.symm.trans hid'))
      | const _ hx' _ hlabel' =>
          obtain rfl := Option.some.inj (hx.symm.trans hx')
          cases hlabel.symm.trans hlabel'
      | not hx' hk' | binary hx' hk' =>
          obtain rfl := Option.some.inj (hx.symm.trans hx')
          cases hk.symm.trans hk'
  | const hid hx hk hlabel =>
      cases h' with
      | var _ hx' _ hlabel' =>
          obtain rfl := Option.some.inj (hx.symm.trans hx')
          cases hlabel.symm.trans hlabel'
      | const hid' =>
          exact congrArg Expr.const
            (Role.constant.inj (Role.name_injective (hid.symm.trans hid')))
      | not hx' hk' | binary hx' hk' =>
          obtain rfl := Option.some.inj (hx.symm.trans hx')
          cases hk.symm.trans hk'
  | not hx hk hdrivers _ ih =>
      rcases h'.gate_cases hx hk with ⟨a, f, rfl, -, hd, hf⟩ | ⟨op, _, _, _, _, -, hop, -⟩
      · cases hdrivers.symm.trans hd
        exact congrArg Expr.not (ih hf)
      · exact absurd hop.symm op.gate_ne_not
  | @binary id x a b e f op hx hk hdrivers _ _ _ ihe ihf =>
      rcases h'.gate_cases hx hk with
        ⟨_, _, -, hop, -⟩ | ⟨op', a, b, e, f, rfl, hop, hd, he, hf, -⟩
      · exact absurd hop op.gate_ne_not
      · cases hdrivers.symm.trans hd
        rw [BinaryOp.gate_injective hop, ihe he, ihf hf]

/-- What may be shared has one component. -/
theorem StandsFor.eq_of_isLeaf (h : StandsFor c a e) (h' : StandsFor c b e) (hleaf : e.isLeaf) :
    a = b := by
  cases h with
  | var hid =>
      cases h' with
      | var hid' => exact hid.trans hid'.symm
  | const hid =>
      cases h' with
      | const hid' => exact hid.trans hid'.symm
  | not | binary => cases hleaf

/-! ## Where suggestions come from -/

/-- A suggestion comes from a double negation, or from an AND or OR of a variable or constant with
itself, for which the components that it names stand. -/
inductive ComesFrom (c : Circuit) (e : Expr) : Suggestion → Prop where
  | doubleNegation {outer inner : ComponentId} {f : Expr} : Subterm (.not (.not f)) e →
      StandsFor c outer (.not (.not f)) → StandsFor c inner (.not f) →
      c.driversOf outer = [some inner] → ComesFrom c e (.doubleNegation outer inner)
  | redundantGate {id : ComponentId} {f : Expr} {op : BinaryOp} : op = .and ∨ op = .or →
      f.isLeaf → Subterm (.binary op f f) e → StandsFor c id (.binary op f f) →
      ComesFrom c e (.redundantGate id op.gate)

/-- A gate of a built circuit stands for a subterm. -/
theorem Shaped.exists_subterm (h : Shaped e root c) (hx : c.component? id = some x)
    (hk : x.kind = .gate g) : ∃ f, Subterm f e ∧ StandsFor c id f := by
  refine (h.origin hx).resolve_left ?_
  rintro rfl
  cases hk.symm.trans (h.fits (r := .output) hx)

/-- Every suggestion comes from a subterm. -/
theorem Shaped.comesFrom (h : Shaped e root c) (hs : c.Suggests s) : ComesFrom c e s := by
  cases hs with
  | doubleNegation hx hk hdrivers hy hky =>
      obtain ⟨f, hf, houter⟩ := h.exists_subterm hx hk
      rcases houter.gate_cases hx hk with ⟨a, f, rfl, -, hd, hinner⟩ | ⟨op, _, _, _, _, -, hop, -⟩
      · cases hdrivers.symm.trans hd
        rcases hinner.gate_cases hy hky with ⟨a, f, rfl, -⟩ | ⟨op, _, _, _, _, -, hop, -⟩
        · exact .doubleNegation hf houter hinner hdrivers
        · exact absurd hop.symm op.gate_ne_not
      · exact absurd hop.symm op.gate_ne_not
  | redundantGate hx hk hg hdrivers =>
      obtain ⟨f, hf, hgate⟩ := h.exists_subterm hx hk
      rcases hgate.gate_cases hx hk with
        ⟨_, _, -, rfl, -⟩ | ⟨op, a, b, f, f', rfl, rfl, hd, hleft, hright, hshared⟩
      · simp at hg
      · cases hdrivers.symm.trans hd
        obtain rfl := hleft.unique hright
        refine .redundantGate ?_ (hshared rfl) hf hgate
        exact hg.imp (BinaryOp.gate_injective ·) (BinaryOp.gate_injective ·)

/-- What a suggestion could come from is suggested. -/
theorem ComesFrom.suggests (h : ComesFrom c e s) : c.Suggests s := by
  cases h with
  | doubleNegation _ houter hinner hdrivers =>
      cases houter with
      | not hx hk =>
          cases hinner with
          | not hy hky => exact .doubleNegation hx hk hdrivers hy hky
  | redundantGate hop hleaf _ hgate =>
      cases hgate with
      | binary hx hk hdrivers hleft hright =>
          obtain rfl := hleft.eq_of_isLeaf hright hleaf
          exact .redundantGate hx hk (hop.imp (congrArg _) (congrArg _)) hdrivers

/-- There is a suggestion for each double negation and for each AND or OR of a variable or
constant with itself, and no other one. -/
theorem Shaped.suggests_iff (h : Shaped e root c) : c.Suggests s ↔ ComesFrom c e s :=
  ⟨h.comesFrom, ComesFrom.suggests⟩

/-- There is nothing that a suggestion about a normal form could come from. -/
theorem ComesFrom.not_isNormal (h : ComesFrom c e s) : ¬ e.IsNormal := by
  intro hnormal
  cases h with
  | doubleNegation hsub => exact hnormal _ hsub (.doubleNot _)
  | redundantGate hop _ hsub =>
      rcases hop with rfl | rfl
      · exact hnormal _ hsub (.and _)
      · exact hnormal _ hsub (.or _)

end Synthesis

/-- Simplified expressions leave nothing to suggest. The circuit of a simplified expression has no
suggestions. The suggestions about the circuit of any expression are those that come from a double
negation in it, or from an AND or OR of equal operands, which share their driver exactly if they
are a variable or a constant. -/
theorem simplified_circuit_has_no_suggestions (e : Expr) :
    (∃ c, Circuit.ofExpr e.simplify = .ok c ∧ c.suggestions = []) ∧
    ∃ c, Circuit.ofExpr e = .ok c ∧ ∀ s, s ∈ c.suggestions ↔ Synthesis.ComesFrom c e s := by
  have hall : ∀ e, ∃ c, Circuit.ofExpr e = .ok c ∧ ∀ s, s ∈ c.suggestions ↔
      Synthesis.ComesFrom c e s := fun e => by
    obtain ⟨c, root, hbuilt, hc⟩ := Synthesis.exists_shaped e
    exact ⟨c, hbuilt, fun s => hc.wired.mem_suggestions_iff.trans hc.suggests_iff⟩
  refine ⟨?_, hall e⟩
  obtain ⟨c, hbuilt, hcomes⟩ := hall e.simplify
  refine ⟨c, hbuilt, List.eq_nil_iff_forall_not_mem.2 fun s hs => ?_⟩
  exact ((hcomes s).1 hs).not_isNormal e.isNormal_simplify

end LogicCircuit
