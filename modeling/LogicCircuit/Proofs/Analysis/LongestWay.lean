import LogicCircuit.Proofs.Analysis.DepthTable
import LogicCircuit.Proofs.Extraction.Meaning
import LogicCircuit.Proofs.Graph.Cycle
import Mathlib.Order.Bounds.Basic

/-!
# The longest way

A way through a circuit follows wires from component to component. Without cycles the depth of a
circuit is the largest number of gates and sinks on a way: along a way each of them is deeper than
the one before (`depthOf_add_steps_le`), and to each component there is a way that takes in as
many as it is deep (`exists_isWay_depthOf`). With cycles ways have no bound, but the depth has
one. The main result is `depth_is_longest_way`.
-/

namespace LogicCircuit

namespace Circuit

variable {c : Circuit} {a b id : ComponentId} {nodes : List ComponentId}

/-- A way follows wires from component to component. -/
def IsWay (c : Circuit) (nodes : List ComponentId) : Prop :=
  (∀ a ∈ nodes, a ∈ c.ids) ∧ c.readerGraph.Linked nodes

/-- The number of gates and sinks on a way. -/
def steps (c : Circuit) (nodes : List ComponentId) : Nat :=
  nodes.countP fun a => c.isOf Kind.isGate a || c.isOf Kind.isSink a

theorem isWay_singleton (hid : id ∈ c.ids) : c.IsWay [id] :=
  ⟨fun _ ha => List.mem_singleton.1 ha ▸ hid, .singleton id⟩

/-- One component is a step unless it is a source. -/
theorem steps_singleton (hid : id ∈ c.ids) :
    c.steps [id] = if c.isOf Kind.isSource id then 0 else 1 := by
  obtain ⟨x, hx⟩ := mem_ids_iff.1 hid
  rw [steps, List.countP_singleton, isOf_of_component? hx, isOf_of_component? hx,
    isOf_of_component? hx]
  cases x.kind <;> rfl

theorem steps_append (c : Circuit) (xs ys : List ComponentId) :
    c.steps (xs ++ ys) = c.steps xs + c.steps ys := List.countP_append

namespace WellWired

/-- A component that is driven is no source. -/
theorem isOf_source_of_mem_next (h : c.WellWired) (ha : a ∈ c.driverGraph.next b) :
    c.isOf Kind.isSource b = false := by
  obtain ⟨x, hx, -⟩ := mem_next_driverGraph.1 ha
  rw [isOf_of_component? hx]
  refine Bool.eq_false_iff.2 fun hsource => ?_
  simp [h.next_driverGraph_of_source hx hsource] at ha

/-- A component is deeper than each of its drivers. -/
theorem depthOf_lt (h : c.WellWired) (hacyclic : c.readerGraph.Acyclic)
    (ha : a ∈ c.driverGraph.next b) : c.depthOf a < c.depthOf b := by
  obtain ⟨x, hx, -⟩ := mem_next_driverGraph.1 ha
  rw [h.depthOf_eq hacyclic hx, above, h.isOf_source_of_mem_next ha]
  have hle := deepest_le_iff.1 (Nat.le_refl _) (c.depthOf a) (List.mem_map_of_mem ha)
  exact Nat.lt_succ_of_le hle

/-- A component is no deeper than its circuit. -/
theorem depthOf_le_depth (h : c.WellWired) (ha : a ∈ c.ids) : c.depthOf a ≤ c.depth := by
  rw [h.depth_eq_deepest]
  exact deepest_le_iff.1 (Nat.le_refl _) _ (List.mem_map_of_mem ha)

/-- Each step of a way leads one deeper. -/
theorem depthOf_add_steps_le (h : c.WellWired) (hacyclic : c.readerGraph.Acyclic)
    (hway : c.IsWay (a :: nodes)) : c.depthOf a + c.steps nodes ≤ c.depth := by
  induction nodes generalizing a with
  | nil => exact h.depthOf_le_depth (hway.1 a List.mem_cons_self)
  | cons b nodes ih =>
      obtain ⟨hab, hrest⟩ := List.isChain_cons_cons.1 hway.2
      have hb : b ∈ c.ids := hway.1 b (by simp)
      have hdriver := h.mem_next_driverGraph_iff.2 hab
      have hstep : c.steps (b :: nodes) = 1 + c.steps nodes := by
        rw [← List.singleton_append, steps_append, steps_singleton hb,
          h.isOf_source_of_mem_next hdriver]
        rfl
      have hdeeper := h.depthOf_lt hacyclic hdriver
      have hrest := ih ⟨fun a ha => hway.1 a (List.mem_cons_of_mem _ ha), hrest⟩
      omega

/-- No way takes more steps than the circuit is deep. -/
theorem steps_le_depth (h : c.WellWired) (hacyclic : c.readerGraph.Acyclic)
    (hway : c.IsWay nodes) : c.steps nodes ≤ c.depth := by
  cases nodes with
  | nil => exact Nat.zero_le _
  | cons a nodes =>
      have ha : a ∈ c.ids := hway.1 a List.mem_cons_self
      obtain ⟨x, hx⟩ := mem_ids_iff.1 ha
      have hfirst : c.steps [a] ≤ c.depthOf a := by
        rw [steps_singleton ha, h.depthOf_eq hacyclic hx, above]
        split <;> omega
      have hrest := h.depthOf_add_steps_le hacyclic hway
      rw [← List.singleton_append, steps_append]
      omega

/-- To each component leads a way with as many steps as the component is deep. -/
theorem exists_isWay_depthOf (h : c.WellWired) (hacyclic : c.readerGraph.Acyclic)
    (hid : id ∈ c.ids) :
    ∃ nodes, c.IsWay (nodes ++ [id]) ∧ c.steps (nodes ++ [id]) = c.depthOf id := by
  -- the deepest driver of a component is one step less deep, and the way goes on from it
  induction hdepth : c.depthOf id using Nat.strong_induction_on generalizing id with
  | h depth ih =>
      obtain ⟨x, hx⟩ := mem_ids_iff.1 hid
      have hsingle := steps_singleton hid
      have heq := h.depthOf_eq hacyclic hx
      rw [above] at heq
      split_ifs at hsingle heq with hsource
      · exact ⟨[], isWay_singleton hid, by rw [List.nil_append, hsingle, ← hdepth, heq]⟩
      rcases List.mem_cons.1 (deepest_spec ((c.driverGraph.next id).map c.depthOf)).1 with
        hzero | hdriver
      · refine ⟨[], isWay_singleton hid, ?_⟩
        rw [List.nil_append, hsingle, ← hdepth, heq, hzero]
      · obtain ⟨b, hb, hdeepest⟩ := List.mem_map.1 hdriver
        have hless := h.depthOf_lt hacyclic hb
        obtain ⟨nodes, ⟨hmem, hlinked⟩, hsteps⟩ :=
          ih (c.depthOf b) (hdepth ▸ hless) (h.mem_ids_of_mem_next hb) rfl
        refine ⟨nodes ++ [b], ⟨?_, ?_⟩, ?_⟩
        · intro a ha
          rcases List.mem_append.1 ha with ha | ha
          · exact hmem a ha
          · exact List.mem_singleton.1 ha ▸ hid
        · refine List.isChain_append.2 ⟨hlinked, .singleton id, ?_⟩
          simpa using h.mem_next_driverGraph_iff.1 hb
        · rw [steps_append, hsteps, hsingle, ← hdepth, heq, hdeepest]

end WellWired

end Circuit

/-- The depth of a circuit is the length of its longest way. For every reachable circuit without a
cycle, `Circuit.depth` is the largest number of gates and sinks on a way along wires, so a source
counts nothing and a gate or sink without drivers one. For every reachable circuit, with cycles or
without, the search ends, since its calls are nested no deeper than there are components, and the
depth is at most the number of gates and one. -/
theorem depth_is_longest_way {c : Circuit} (h : c.Reachable) :
    (c.hasCycle = false → IsGreatest {n | ∃ nodes, c.IsWay nodes ∧ c.steps nodes = n} c.depth) ∧
    (c.components.size = 0 → c.depth = 0) ∧
    (∀ path known id,
      c.depthWithin (c.components.size + 1) path known id = some (c.depthBelow path known id)) ∧
    c.depth ≤ c.gates.length + 1 := by
  have hwired := h.wellWired
  refine ⟨fun hcycle => ?_, fun hempty => ?_, fun path known id => ?_, hwired.depth_le⟩
  · have hacyclic := hwired.hasCycle_eq_false_iff.1 hcycle
    constructor
    · rcases List.mem_cons.1 (deepest_spec (c.ids.map c.depthOf)).1 with hzero | hdeepest
      · exact ⟨[], ⟨by simp, .nil⟩, by rw [hwired.depth_eq_deepest, hzero]; rfl⟩
      · obtain ⟨id, hid, hdepth⟩ := List.mem_map.1 hdeepest
        obtain ⟨nodes, hway, hsteps⟩ := hwired.exists_isWay_depthOf hacyclic hid
        exact ⟨_, hway, by rw [hsteps, hdepth, hwired.depth_eq_deepest]⟩
    · rintro n ⟨nodes, hway, rfl⟩
      exact hwired.steps_le_depth hacyclic hway
  · have hids : c.ids = [] := by
      rw [Circuit.ids, List.map_eq_nil_iff]
      exact List.length_eq_zero_iff.1 hempty
    rw [hwired.depth_eq_deepest, hids]
    rfl
  · refine Circuit.depthWithin_eq (Nat.lt_succ_of_le ?_) known id
    refine List.countP_le_length.trans (Nat.le_of_eq ?_)
    rw [Roster.size]
    exact List.length_map _

/-- The bulb at the end of the row of inverters is three steps from the switch, and no way is
longer; in the latch, where wires form a loop, the depth keeps to its bound. -/
theorem depth_litRow_latch : litRow.Reachable ∧ litRow.hasCycle = false ∧
    IsGreatest {n | ∃ nodes, litRow.IsWay nodes ∧ litRow.steps nodes = n} litRow.depth ∧
    litRow.depth = 3 ∧ latch.Reachable ∧ latch.hasCycle = true ∧
    latch.depth ≤ latch.gates.length + 1 := by
  have hlit : litRow.Reachable :=
    .new ((Run.applyAll (fun _ _ => trivial) _).trans (.applyAll (fun _ _ => trivial) _))
  have hlatch : latch.Reachable := reachable_applyAll _
  have hcycle : litRow.hasCycle = false := by decide +kernel
  exact ⟨hlit, hcycle, (depth_is_longest_way hlit).1 hcycle, by decide +kernel, hlatch,
    by decide +kernel, (depth_is_longest_way hlatch).2.2.2⟩

end LogicCircuit
