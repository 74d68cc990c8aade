import LogicCircuit.Proofs.Analysis.LongestWay
import LogicCircuit.Proofs.Synthesis.Building
import Mathlib.Data.List.ReduceOption

/-!
# The shape of a built circuit

Figures about the circuit for an expression are figures about the expression. Its gates are those
of the operators, its sources are named after the variables and constants that occur
(`Shaped.perm_sources`), a component is as deep as the subterm that it stands for
(`StandsFor.depthOf_eq`), and with all slots driven there are as many wires as slots
(`Shaped.size_wires`). The main result is `synthesised_circuit_has_shape`.
-/

namespace LogicCircuit

open LogicCircuit.Expr (Subterm)

/-! ## Figures about expressions -/

namespace Expr

variable {e f : Expr} {on : Bool}

/-- The constants in the order in which they are written, with repetitions. -/
def constants : Expr → List Bool
  | var _ => []
  | const on => [on]
  | not e => e.constants
  | binary _ a b => a.constants ++ b.constants

/-- The number of negations. -/
def negations : Expr → Nat
  | var _ | const _ => 0
  | not e => 1 + e.negations
  | binary _ a b => a.negations + b.negations

/-- The number of binary operators. -/
def binaries : Expr → Nat
  | var _ | const _ => 0
  | not e => e.binaries
  | binary _ a b => 1 + a.binaries + b.binaries

/-- The constants that occur as subterms are those that are written. -/
theorem subterm_const_iff : Subterm (.const on) e ↔ on ∈ e.constants := by
  constructor
  · intro h
    induction h with
    | self => exact List.mem_singleton_self on
    | not _ ih => exact ih
    | left _ ih => exact List.mem_append_left _ ih
    | right _ ih => exact List.mem_append_right _ ih
  · intro h
    induction e with
    | var name => cases h
    | const on => exact List.mem_singleton.1 h ▸ .self
    | not e ih => exact (ih h).not
    | binary op a b iha ihb =>
        rcases List.mem_append.1 h with h | h
        · exact (iha h).left
        · exact (ihb h).right

/-- A subterm is no deeper than the whole. -/
theorem Subterm.depth_le (h : Subterm f e) : f.depth ≤ e.depth := by
  induction h with
  | self => exact Nat.le_refl _
  | not _ ih | left _ ih | right _ ih =>
      rw [depth]
      omega

/-- There is one gate for each operator. -/
@[simp] theorem length_gates (e : Expr) : e.gates.length = e.operators := by
  induction e with
  | var name => rfl
  | const on => rfl
  | not e ih =>
      rw [gates, operators, List.length_cons, ih, Nat.add_comm]
  | binary op a b iha ihb =>
      rw [gates, operators, List.length_cons, List.length_append, iha, ihb]
      omega

/-- The gates have a slot for each negation and two for each binary operator. -/
theorem sum_arity_gates (e : Expr) :
    (e.gates.map Gate.arity).sum = e.negations + 2 * e.binaries := by
  induction e with
  | var name => rfl
  | const on => rfl
  | not e ih =>
      rw [gates, negations, binaries, List.map_cons, List.sum_cons, ih]
      show 1 + (e.negations + 2 * e.binaries) = _
      omega
  | binary op a b iha ihb =>
      rw [gates, negations, binaries, List.map_cons, List.map_append, List.sum_cons,
        List.sum_append, iha, ihb, op.arity_gate]
      omega

end Expr

/-! ## Slots and wires -/

namespace Circuit

variable {c : Circuit}

/-- Slots belong to gates and sinks. -/
theorem sum_arity (xs : List Component) : (xs.map (·.kind.arity)).sum =
    (((xs.filter (·.kind.isGate)).filterMap (·.kind.gate?)).map Gate.arity).sum +
      ((xs.filter (·.kind.isSink)).map (·.kind.arity)).sum := by
  induction xs with
  | nil => rfl
  | cons x xs ih =>
      rw [List.map_cons, List.sum_cons, ih]
      cases hk : x.kind <;>
        simp [hk, Kind.isGate, Kind.isSink, Kind.gate?, Kind.arity, Nat.add_assoc,
          Nat.add_left_comm]

/-- With all slots driven there are as many wires as slots. -/
theorem WellWired.size_wires_of_driven (h : c.WellWired) (hdriven : ∀ a, none ∉ c.driversOf a) :
    c.wires.size = (c.gateFunctions.map Gate.arity).sum + (c.sinks.map (·.kind.arity)).sum := by
  have hslots : ∀ x ∈ c.components.entries,
      (c.driverGraph.next x.id).length = x.kind.arity := fun x hx => by
    rw [← h.length_driversOf (Roster.mem_entries_iff.1 hx)]
    refine List.reduceOption_length_eq_iff.2 fun d hd => ?_
    exact Option.isSome_iff_ne_none.2 fun hnone => hdriven x.id (hnone ▸ hd)
  rw [h.size_wires, ids, List.map_map]
  exact (congrArg List.sum (List.map_congr_left hslots)).trans (sum_arity _)

end Circuit

namespace Synthesis

variable {c : Circuit} {id root a : ComponentId} {e f : Expr} {x : Component}

/-- A subterm of what a component stands for has a component of its own. -/
theorem StandsFor.exists_of_subterm (h : StandsFor c id e) (hf : Subterm f e) :
    ∃ a, StandsFor c a f := by
  induction hf generalizing id with
  | self => exact ⟨id, h⟩
  | not _ ih =>
      cases h with
      | not _ _ _ h => exact ih h
  | left _ ih =>
      cases h with
      | binary _ _ _ h => exact ih h
  | right _ ih =>
      cases h with
      | binary _ _ _ _ h => exact ih h

/-- All slots of a component are driven. -/
theorem StandsFor.none_not_mem_driversOf (h : StandsFor c id e) (hc : c.WellWired) :
    none ∉ c.driversOf id := by
  cases h with
  | var _ hx hk | const _ hx hk =>
      have hlength := hc.length_driversOf hx
      rw [hk] at hlength
      rw [List.length_eq_zero_iff.1 hlength]
      exact List.not_mem_nil
  | not _ _ hdrivers | binary _ _ hdrivers => simp [hdrivers]

/-- A component is as deep as what it stands for. -/
theorem StandsFor.depthOf_eq (h : StandsFor c id e) (hc : c.WellWired)
    (hacyclic : c.readerGraph.Acyclic) : c.depthOf id = e.depth := by
  induction h with
  | var _ hx hk | const _ hx hk =>
      rw [hc.depthOf_eq hacyclic hx, Circuit.above, Circuit.isOf_of_component? hx, hk]
      rfl
  | not hx hk hdrivers _ ih =>
      rw [hc.depthOf_eq hacyclic hx, Circuit.above, Circuit.isOf_of_component? hx, hk,
        Circuit.next_driverGraph, hdrivers]
      simp [Kind.isSource, deepest, ih, Expr.depth, Nat.add_comm]
  | binary hx hk hdrivers _ _ _ ihe ihf =>
      rw [hc.depthOf_eq hacyclic hx, Circuit.above, Circuit.isOf_of_component? hx, hk,
        Circuit.next_driverGraph, hdrivers]
      simp [Kind.isSource, deepest, ihe, ihf, Expr.depth, Nat.add_comm]

namespace Shaped

/-- All slots are driven. -/
theorem none_not_mem_driversOf (h : Shaped e root c) (a : ComponentId) :
    none ∉ c.driversOf a := by
  cases hx : c.component? a with
  | none => simp [Circuit.driversOf, hx]
  | some x =>
      rcases h.origin hx with rfl | ⟨f, _, hstands⟩
      · simp [h.driven]
      · exact hstands.none_not_mem_driversOf h.wired

/-- There are a wire to the bulb, one for each negation and two for each binary operator. -/
theorem size_wires (h : Shaped e root c) :
    c.wires.size = 1 + e.negations + 2 * e.binaries := by
  obtain ⟨x, hsinks, -, hk⟩ := h.exists_sinks_eq
  rw [h.wired.size_wires_of_driven h.none_not_mem_driversOf, (h.gates.map Gate.arity).sum_nat,
    e.sum_arity_gates, hsinks, List.map_singleton, hk]
  show _ + 1 = _
  omega

/-- The gates are counted by their functions. -/
theorem length_gates (h : Shaped e root c) : c.gates.length = e.operators := by
  have hall : c.gateFunctions.length = c.gates.length := by
    refine List.filterMap_length_eq_length.2 fun x hx => ?_
    obtain ⟨-, g, hk⟩ := Circuit.mem_gates_iff.1 hx
    rw [hk]
    rfl
  rw [← hall, h.gates.length_eq, e.length_gates]

/-- There is a source for each variable and each constant that occurs. -/
theorem perm_sources (h : Shaped e root c) : (c.sources.map (·.id)).Perm
    (e.variableNames.map inputName ++ e.constants.dedup.map constantName) := by
  have hconstants : Function.Injective constantName := fun _ _ heq =>
    Role.constant.inj (Role.name_injective heq)
  have hnodup : (e.variableNames.map inputName ++ e.constants.dedup.map constantName).Nodup := by
    refine List.Nodup.append (e.nodup_variableNames.map inputName_injective)
      ((List.nodup_dedup _).map hconstants) ?_
    rintro a ha hb
    obtain ⟨v, -, rfl⟩ := List.mem_map.1 ha
    obtain ⟨on, -, heq⟩ := List.mem_map.1 hb
    have hroles : Role.constant on = Role.switch v := Role.name_injective heq
    cases hroles
  have hids : (c.sources.map (·.id)).Nodup := by
    have hsublist := (List.filter_sublist (p := (·.kind.isSource))
      (l := c.components.entries)).map (·.id)
    exact hsublist.nodup c.nodup_ids
  refine (List.perm_ext_iff_of_nodup hids hnodup).2 fun a => ?_
  simp only [List.mem_append, List.mem_map, List.mem_dedup]
  constructor
  · -- a source stands for a subterm that is no operation
    rintro ⟨x, hx, rfl⟩
    obtain ⟨hlook, s, hk⟩ := Circuit.mem_sources_iff.1 hx
    rcases h.origin hlook with hid | ⟨f, hf, hstands⟩
    · rw [hid] at hlook
      cases hk.symm.trans (h.fits (r := .output) hlook)
    · cases hstands with
      | var hid =>
          exact .inl ⟨_, Expr.mem_variableNames_iff.2 (Expr.subterm_var_iff.1 hf), hid.symm⟩
      | const hid => exact .inr ⟨_, Expr.subterm_const_iff.1 hf, hid.symm⟩
      | not hx' hk' | binary hx' hk' =>
          obtain rfl := Option.some.inj (hlook.symm.trans hx')
          cases hk.symm.trans hk'
  · have hsource : ∀ {b x s}, c.component? b = some x → x.kind = .source s →
        ∃ x ∈ c.sources, x.id = b := fun hx hk => by
      have hid := Roster.name_of_get? hx
      exact ⟨_, Circuit.mem_sources_iff.2 ⟨hid ▸ hx, _, hk⟩, hid⟩
    rintro (⟨v, hv, rfl⟩ | ⟨on, hon, rfl⟩)
    · obtain ⟨x, hx⟩ := h.switches hv
      obtain ⟨-, ⟨level, hk⟩, -⟩ := h.fits (r := .switch v) hx
      exact hsource hx hk
    · obtain ⟨b, hb⟩ := h.stands.exists_of_subterm (Expr.subterm_const_iff.2 hon)
      cases hb with
      | const hid hx hk => exact hsource (hid ▸ hx) hk

/-- The bulb is one step above the root, and nothing is deeper. -/
theorem depth_eq (h : Shaped e root c) (hacyclic : c.readerGraph.Acyclic) :
    c.depth = e.depth + 1 := by
  obtain ⟨x, hx⟩ := h.bulb
  have hk := h.fits (r := .output) hx
  have hbulb : c.depthOf outputName = e.depth + 1 := by
    rw [h.wired.depthOf_eq hacyclic hx, Circuit.above, Circuit.isOf_of_component? hx, hk,
      Circuit.next_driverGraph, h.driven]
    simp [Kind.isSource, deepest, h.stands.depthOf_eq h.wired hacyclic]
  refine Nat.le_antisymm ?_ ?_
  · rw [h.wired.depth_eq_deepest, deepest_le_iff]
    refine List.forall_mem_map.2 fun a ha => ?_
    obtain ⟨y, hy⟩ := Circuit.mem_ids_iff.1 ha
    rcases h.origin hy with rfl | ⟨f, hf, hstands⟩
    · exact Nat.le_of_eq hbulb
    · rw [hstands.depthOf_eq h.wired hacyclic]
      exact hf.depth_le.trans (Nat.le_succ _)
  · rw [← hbulb]
    exact h.wired.depthOf_le_depth (Circuit.mem_ids_iff.2 ⟨x, hx⟩)

/-- There is nothing to warn of. -/
theorem warnings_eq_nil (h : Shaped e root c) (hacyclic : c.readerGraph.Acyclic) :
    c.warnings = [] := by
  have hslots : ∀ {y}, c.component? y.id = some y → none ∉ y.slots := fun hy =>
    mt (h.wired.none_mem_driversOf_iff hy).2 (h.none_not_mem_driversOf _)
  refine c.warnings_eq_nil_iff.2 ⟨fun g hg => hslots (Circuit.mem_gates_iff.1 hg).1,
    h.wired.hasCycle_eq_false_iff.2 hacyclic, fun s hs => ?_⟩
  obtain ⟨x, hsinks, -, hk⟩ := h.exists_sinks_eq
  have hx := (Circuit.mem_sinks_iff.1 hs).1
  rw [hsinks] at hs
  obtain rfl := List.mem_singleton.1 hs
  obtain ⟨slot, hslot⟩ : ∃ slot, s.slots = [slot] :=
    List.length_eq_one_iff.1 (by rw [(h.wired.formed hx).slots, hk]; rfl)
  have hwire := hslots hx
  rw [hslot] at hwire ⊢
  cases slot with
  | none => exact absurd (List.mem_singleton_self none) hwire
  | some k => exact ⟨k, rfl⟩

end Shaped

end Synthesis

/-- A built circuit has the shape of its expression. Analysis of the circuit for an expression
counts a gate for each operator, also by kind, an input for each variable and for each constant
that occurs, one output, and a wire to the bulb, one for each negation and two for each binary
operator. It is one deeper than the expression, for the bulb, and there is nothing to warn of. -/
theorem synthesised_circuit_has_shape (e : Expr) : ∃ c, Circuit.ofExpr e = .ok c ∧
    c.analyze.gates = e.operators ∧
    c.analyze.usage =
      (Gate.all.map fun g => (g, e.gates.count g)).filter (·.2 != 0) ∧
    c.analyze.depth = e.depth + 1 ∧
    c.analyze.inputs = e.variableNames.length + e.constants.dedup.length ∧
    c.analyze.outputs = 1 ∧
    c.analyze.wires = 1 + e.negations + 2 * e.binaries ∧
    c.analyze.warnings = [] := by
  obtain ⟨c, root, hbuilt, hc⟩ := Synthesis.exists_shaped e
  have hacyclic : c.readerGraph.Acyclic :=
    ((Loaded.expr hbuilt).assembled.mono fun _ h => h.1).acyclic
  obtain ⟨x, hsinks, -, -⟩ := hc.exists_sinks_eq
  refine ⟨c, hbuilt, hc.length_gates, ?_, hc.depth_eq hacyclic, ?_, ?_, hc.size_wires,
    hc.warnings_eq_nil hacyclic⟩
  · show c.usage = _
    simp only [Circuit.usage, hc.gates.count_eq]
  · show c.sources.length = _
    simpa using hc.perm_sources.length_eq
  · show c.sinks.length = 1
    rw [hsinks]
    rfl

end LogicCircuit
