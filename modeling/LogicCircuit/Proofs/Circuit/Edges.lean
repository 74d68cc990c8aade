import LogicCircuit.Proofs.Circuit.Wiring
import LogicCircuit.Proofs.Graph.DepthFirst
import Mathlib.Algebra.GroupWithZero.Nat
import Mathlib.Data.List.Perm.Basic

/-!
# Wires as edges

The graph of readers follows the wires and the graph of drivers the slots. In a well-wired circuit
they are the same graph in opposite directions (`mem_next_driverGraph_iff`), with one edge for
each wire: `perm_next_driverGraph` compares the edges at one component, `sum_lateEdges` counts
those of the whole circuit that go against an order.
-/

namespace LogicCircuit

variable {c d : Circuit} {a b : ComponentId}

namespace Circuit

/-- The names of a circuit are those that it looks up. -/
theorem mem_ids_iff : a ∈ c.ids ↔ ∃ x, c.component? a = some x := by
  simp only [ids, List.mem_map, component?, Roster.get?_eq_some_iff]

theorem nodup_ids (c : Circuit) : c.ids.Nodup :=
  List.pairwise_map.2 (c.components.increasing.imp String.ne_of_lt)

theorem nodup_wires (c : Circuit) : c.wires.entries.Nodup :=
  c.wires.increasing.imp fun hlt e => String.ne_of_lt hlt (congrArg Wire.id e)

/-- A component reaches those that a wire leads to. -/
theorem mem_next_readerGraph_iff :
    b ∈ c.readerGraph.next a ↔ ∃ k w, c.wire? k = some w ∧ w.source = a ∧ w.target = b := by
  simp only [readerGraph, fanout, List.mem_map, List.mem_filter, beq_iff_eq]
  constructor
  · rintro ⟨w, ⟨hw, hsource⟩, htarget⟩
    exact ⟨w.id, w, Roster.mem_entries_iff.1 hw, hsource, htarget⟩
  · rintro ⟨k, w, hw, hsource, htarget⟩
    exact ⟨w, ⟨(Roster.get?_eq_some_iff.1 hw).1, hsource⟩, htarget⟩

/-- A component is driven by those that the wires on its slots come from. -/
theorem mem_next_driverGraph :
    b ∈ c.driverGraph.next a ↔ ∃ x, c.component? a = some x ∧
      ∃ k w, some k ∈ x.slots ∧ c.wire? k = some w ∧ w.source = b := by
  cases hx : c.component? a with
  | none => simp [driverGraph, driversOf, hx]
  | some x =>
      simp only [driverGraph, driversOf, hx, List.filterMap_map, List.mem_filterMap,
        Function.comp_def, driver?, Option.map_eq_some_iff, Option.bind_eq_some_iff]
      grind

/-- The drivers of a component are those of its slots. -/
theorem driversOf_of_component? {x : Component} (hx : c.component? a = some x) :
    c.driversOf a = x.slots.map c.driver? := by
  rw [driversOf, hx]

theorem next_driverGraph (c : Circuit) (a : ComponentId) :
    c.driverGraph.next a = (c.driversOf a).filterMap fun d => d := rfl

/-- What drives a slot is a driver. -/
theorem mem_next_of_mem_driversOf (h : some b ∈ c.driversOf a) : b ∈ c.driverGraph.next a :=
  List.mem_filterMap.2 ⟨some b, h, rfl⟩

namespace WellWired

/-- The drivers of a component are what a wire leads from to it. -/
theorem mem_next_driverGraph_iff (h : c.WellWired) :
    b ∈ c.driverGraph.next a ↔ a ∈ c.readerGraph.next b := by
  rw [mem_next_driverGraph, mem_next_readerGraph_iff]
  constructor
  · rintro ⟨x, hx, k, w, hslot, hw, hsource⟩
    obtain ⟨i, hi⟩ := List.mem_iff_getElem?.1 hslot
    obtain ⟨w', hw', htarget, _⟩ := h.slot hx hi
    obtain rfl := Option.some.inj (hw.symm.trans hw')
    exact ⟨k, w, hw, hsource, htarget⟩
  · rintro ⟨k, w, hw, hsource, rfl⟩
    obtain ⟨t, ht, hslot⟩ := h.target hw
    exact ⟨t, ht, k, w, List.mem_of_getElem? hslot, hw, hsource⟩

/-- A driver is a source or a gate. -/
theorem component?_driver (h : c.WellWired) (hb : b ∈ c.driverGraph.next a) :
    ∃ y, c.component? b = some y ∧ ¬ y.kind.isSink := by
  obtain ⟨k, w, hw, rfl, _⟩ := mem_next_readerGraph_iff.1 (h.mem_next_driverGraph_iff.1 hb)
  exact h.source hw

/-- There is one driver for each input of a component. -/
theorem length_driversOf (h : c.WellWired) {x : Component} (hx : c.component? a = some x) :
    (c.driversOf a).length = x.kind.arity := by
  rw [driversOf_of_component? hx, List.length_map, (h.formed hx).slots]

/-- A slot has no driver exactly if there is no wire on it. -/
theorem none_mem_driversOf_iff (h : c.WellWired) {x : Component} (hx : c.component? a = some x) :
    none ∈ c.driversOf a ↔ none ∈ x.slots := by
  rw [driversOf_of_component? hx, List.mem_map]
  constructor
  · rintro ⟨s, hs, hnone⟩
    cases s with
    | none => exact hs
    | some k =>
        obtain ⟨i, hi⟩ := List.mem_iff_getElem?.1 hs
        obtain ⟨w, hw, _⟩ := h.slot hx hi
        simp [driver?, hw] at hnone
  · exact fun hs => ⟨none, hs, rfl⟩

/-- Wires come from components. -/
theorem supported_readerGraph (h : c.WellWired) : c.readerGraph.Supported := by
  intro a ha
  refine List.eq_nil_iff_forall_not_mem.2 fun b hb => ha ?_
  obtain ⟨k, w, hw, rfl, _⟩ := mem_next_readerGraph_iff.1 hb
  obtain ⟨s, hs, _⟩ := h.source hw
  exact mem_ids_iff.2 ⟨s, hs⟩

/-- However the components that each one drives are listed, wires come from components. -/
theorem supported_listed (h : c.WellWired) {next : ComponentId → List ComponentId}
    (hnext : ∀ a, (next a).Perm (c.readerGraph.next a)) : Graph.Supported ⟨c.ids, next⟩ := by
  intro a ha
  have hnone : c.readerGraph.next a = [] := h.supported_readerGraph a ha
  exact (hnone ▸ hnext a).eq_nil

end WellWired

/-- The order in which the components that each one drives are listed makes no path. -/
theorem path_listed_iff {next : ComponentId → List ComponentId}
    (hnext : ∀ a, (next a).Perm (c.readerGraph.next a)) :
    Graph.Path ⟨c.ids, next⟩ a b ↔ c.readerGraph.Path a b :=
  ⟨.mono fun x _ hy => (hnext x).mem_iff.1 hy, .mono fun x _ hy => (hnext x).mem_iff.2 hy⟩

/-- Only components have drivers. -/
theorem supported_driverGraph (c : Circuit) : c.driverGraph.Supported := by
  intro a ha
  refine List.eq_nil_iff_forall_not_mem.2 fun b hb => ha ?_
  obtain ⟨x, hx, _⟩ := mem_next_driverGraph.1 hb
  exact mem_ids_iff.2 ⟨x, hx⟩

/-- Different slots hold different wires, so those on a component are listed once. -/
theorem WellWired.nodup_wiresOn (h : c.WellWired) {x : Component} (hx : c.component? a = some x) :
    (x.slots.filterMap fun s => s.bind c.wire?).Nodup := by
  have hslot : ∀ {i : Nat} (hi : i < x.slots.length) {w : Wire},
      w ∈ x.slots[i].bind c.wire? → w.slot = i := by
    intro i hi w hw
    obtain ⟨k, hk, hk'⟩ := Option.bind_eq_some_iff.1 hw
    obtain ⟨w', hw', _, hend⟩ := h.slot hx (by rw [List.getElem?_eq_getElem hi, hk])
    rw [Option.some.inj (hk'.symm.trans hw'), hend]
  refine List.pairwise_filterMap.2
    (List.pairwise_iff_getElem.2 fun i j hi hj hlt v hv w hw e => ?_)
  rw [← hslot hi hv, ← hslot hj hw, e] at hlt
  exact Nat.lt_irrefl _ hlt

/-- A component has one driver for each wire that ends there. -/
theorem WellWired.perm_next_driverGraph (h : c.WellWired) (a : ComponentId) :
    (c.driverGraph.next a).Perm
      ((c.wires.entries.filter fun w => w.target = a).map (·.source)) := by
  cases hx : c.component? a with
  | none =>
      have hnone : c.wires.entries.filter (fun w => w.target = a) = [] := by
        refine List.filter_eq_nil_iff.2 fun w hw => ?_
        obtain ⟨t, ht, _⟩ := h.target (Roster.mem_entries_iff.1 hw)
        intro e
        rw [of_decide_eq_true e, hx] at ht
        cases ht
      have hfree : a ∉ c.ids := fun ha => by
        obtain ⟨x, hx'⟩ := mem_ids_iff.1 ha
        rw [hx] at hx'
        cases hx'
      rw [hnone, c.supported_driverGraph a hfree]
      exact .nil
  | some x =>
      have hnext : c.driverGraph.next a =
          (x.slots.filterMap fun s => s.bind c.wire?).map (·.source) := by
        rw [driverGraph, List.map_filterMap]
        simp only [driversOf, hx, List.filterMap_map]
        rfl
      -- neither list repeats a wire, so it is enough that they hold the same ones
      have hlisted := c.nodup_wires.filter fun w => w.target = a
      rw [hnext]
      refine .map _ ((List.perm_ext_iff_of_nodup (h.nodup_wiresOn hx) hlisted).2 fun w => ?_)
      simp only [List.mem_filterMap, Option.bind_eq_some_iff, List.mem_filter, decide_eq_true_eq]
      constructor
      · rintro ⟨s, hs, k, rfl, hw⟩
        obtain ⟨i, hi⟩ := List.mem_iff_getElem?.1 hs
        obtain ⟨w', hw', htarget, _⟩ := h.slot hx hi
        obtain rfl := Option.some.inj (hw.symm.trans hw')
        exact ⟨(Roster.get?_eq_some_iff.1 hw).1, htarget⟩
      · rintro ⟨hmem, rfl⟩
        have hw := Roster.mem_entries_iff.1 hmem
        obtain ⟨t, ht, hslot⟩ := h.target hw
        obtain rfl := Option.some.inj (hx.symm.trans ht)
        exact ⟨_, List.mem_of_getElem? hslot, w.id, rfl, hw⟩

/-- Wires are counted by their targets. -/
theorem sum_countP_target (p : Wire → Bool) {names : List ComponentId} (hn : names.Nodup)
    {wires : List Wire} (h : ∀ w ∈ wires, w.target ∈ names) :
    (names.map fun a => (wires.filter fun w => w.target = a).countP p).sum = wires.countP p := by
  induction names generalizing wires with
  | nil =>
      have hnil : wires = [] := List.eq_nil_iff_forall_not_mem.2 fun w hw => by simpa using h w hw
      simp [hnil]
  | cons a names ih =>
      obtain ⟨ha, hn⟩ := List.nodup_cons.1 hn
      -- the wires to the other names are those that remain for the induction hypothesis
      have hrest : ∀ b ∈ names, (wires.filter fun w => w.target = b) =
          (wires.filter fun w => ¬ w.target = a).filter fun w => w.target = b := by
        intro b hb
        rw [List.filter_filter]
        refine List.filter_congr fun w _ => ?_
        have hba : b ≠ a := fun e => ha (e ▸ hb)
        by_cases hw : w.target = b <;> simp [hw, hba]
      have hleft : ∀ w ∈ wires.filter fun w => ¬ w.target = a, w.target ∈ names := by
        intro w hw
        obtain ⟨hw, hne⟩ := List.mem_filter.1 hw
        exact (List.mem_cons.1 (h w hw)).resolve_left (of_decide_eq_true hne)
      have hsum := ih hn hleft
      rw [List.map_cons, List.sum_cons,
        List.map_congr_left fun b hb => congrArg (List.countP p) (hrest b hb), hsum]
      rw [List.countP_eq_countP_filter_add wires p fun w => w.target = a]
      simp only [decide_not]

/-- Wires end at components. -/
theorem WellWired.target_mem_ids (h : c.WellWired) {w : Wire} (hw : w ∈ c.wires.entries) :
    w.target ∈ c.ids := by
  obtain ⟨t, ht, _⟩ := h.target (Roster.mem_entries_iff.1 hw)
  exact mem_ids_iff.2 ⟨t, ht⟩

/-- There is a wire for each driver of a component. -/
theorem WellWired.size_wires (h : c.WellWired) :
    c.wires.size = (c.ids.map fun a => (c.driverGraph.next a).length).sum := by
  have hdrivers : ∀ a, (c.driverGraph.next a).length =
      (c.wires.entries.filter fun w => w.target = a).countP fun _ => true := by
    intro a
    rw [(h.perm_next_driverGraph a).length_eq, List.length_map, List.countP_true]
  rw [List.map_congr_left fun a _ => hdrivers a,
    sum_countP_target _ c.nodup_ids fun w => h.target_mem_ids, List.countP_true, Roster.size]

/-- The edges that are late in an order of all components are the wires that are late in it. -/
theorem WellWired.sum_lateEdges (h : c.WellWired) {order : List ComponentId}
    (horder : order.Perm c.ids) :
    (order.map (Traversal.lateEdges c.driverGraph order)).sum =
      c.wires.entries.countP fun w => ¬ Precedes order w.source w.target := by
  have hlate : ∀ a, Traversal.lateEdges c.driverGraph order a =
      (c.wires.entries.filter fun w => w.target = a).countP
        fun w => ¬ Precedes order w.source w.target := by
    intro a
    unfold Traversal.lateEdges
    rw [(h.perm_next_driverGraph a).countP_eq, List.countP_map]
    refine List.countP_congr fun w hw => ?_
    have htarget := of_decide_eq_true (List.mem_filter.1 hw).2
    simp [htarget]
  rw [List.map_congr_left fun a _ => hlate a]
  exact sum_countP_target _ (horder.nodup_iff.2 c.nodup_ids) fun w hw =>
    horder.mem_iff.2 (h.target_mem_ids hw)

end Circuit

end LogicCircuit
