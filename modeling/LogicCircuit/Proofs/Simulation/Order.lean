import LogicCircuit.Analysis
import LogicCircuit.Proofs.Circuit.Acyclicity

/-!
# The order of evaluation

`Circuit.evaluationOrder` lists every component of a circuit once, drivers before the components
that they drive. Where wires form loops this is not possible for all wires, and the walk notes the
source of each wire that it has to leave out. The main result is `evaluation_order_of_reachable`;
the other ones say that the walk along the drivers and the search for a cycle along the readers
agree on whether there is feedback.
-/

namespace LogicCircuit

variable {c : Circuit} {a b : ComponentId}

namespace Circuit

namespace WellWired

/-- Drivers are components. -/
theorem mem_ids_of_mem_next (h : c.WellWired) (hb : b ∈ c.driverGraph.next a) : b ∈ c.ids := by
  obtain ⟨k, w, hw, rfl, _⟩ := mem_next_readerGraph_iff.1 (h.mem_next_driverGraph_iff.1 hb)
  obtain ⟨s, hs, _⟩ := h.source hw
  exact mem_ids_iff.2 ⟨s, hs⟩

/-- Paths along the drivers stay among the components. -/
theorem mem_ids_of_path (h : c.WellWired) (hab : c.driverGraph.Path a b) : b ∈ c.ids := by
  induction hab with
  | edge hb => exact h.mem_ids_of_mem_next hb
  | cons _ _ ih => exact ih

/-- Readers are followed along a path exactly if drivers are followed back along it. -/
theorem path_readerGraph_iff (h : c.WellWired) :
    c.readerGraph.Path a b ↔ c.driverGraph.Path b a :=
  ⟨fun hab => hab.reverse fun _ _ => h.mem_next_driverGraph_iff.2,
    fun hba => hba.reverse fun _ _ => h.mem_next_driverGraph_iff.1⟩

/-- What lies on a cycle is a component. -/
theorem mem_ids_of_cycle (h : c.WellWired) (ha : c.readerGraph.Path a a) : a ∈ c.ids :=
  h.mem_ids_of_path (h.path_readerGraph_iff.1 ha)

/-- The order of evaluation holds the components and nothing else. -/
theorem mem_closed_evaluationOrder_iff (h : c.WellWired) :
    a ∈ c.evaluationOrder.closed ↔ a ∈ c.ids := by
  have hsinks : ∀ b ∈ c.sinks.map (·.id), b ∈ c.ids := by
    intro b hb
    obtain ⟨x, hx, rfl⟩ := List.mem_map.1 hb
    exact List.mem_map_of_mem (List.mem_of_mem_filter hx)
  unfold evaluationOrder
  rw [Traversal.mem_closed_ofStarts_iff c.supported_driverGraph]
  constructor
  · rintro ⟨b, hb, hba⟩
    rcases hba with rfl | hba
    · exact (List.mem_append.1 hb).elim (hsinks b) id
    · exact h.mem_ids_of_path hba
  · exact fun ha => ⟨a, List.mem_append_right _ ha, .refl _ a⟩

/-- The order of evaluation lists every component once. -/
theorem perm_closed_evaluationOrder (h : c.WellWired) : c.evaluationOrder.closed.Perm c.ids :=
  (List.perm_ext_iff_of_nodup (Traversal.explores_ofStarts c.supported_driverGraph _).nodup
    c.nodup_ids).2 fun _ => h.mem_closed_evaluationOrder_iff

/-- The source of a wire comes before its target, or the wire closes a loop and is noted. -/
theorem precedes_or_precedes_evaluationOrder (h : c.WellWired) {k : WireId} {w : Wire}
    (hw : c.wire? k = some w) :
    Precedes c.evaluationOrder.closed w.source w.target ∨
      Precedes c.evaluationOrder.closed w.target w.source ∧
        w.source ∈ c.evaluationOrder.returns := by
  obtain ⟨t, ht, _⟩ := h.target hw
  have htarget : w.target ∈ c.evaluationOrder.closed :=
    h.mem_closed_evaluationOrder_iff.2 (mem_ids_iff.2 ⟨t, ht⟩)
  have hedge : w.source ∈ c.driverGraph.next w.target :=
    h.mem_next_driverGraph_iff.2 (mem_next_readerGraph_iff.2 ⟨k, w, hw, rfl, rfl⟩)
  have hmet := Traversal.precedes_or_mem_returns c.supported_driverGraph htarget hedge
  rcases precedes_or_precedes htarget (h.distinct hw).symm with hlate | hearly
  · exact hmet.imp_right fun hmem => ⟨hlate, hmem⟩
  · exact .inl hearly

/-- There is one note for each wire whose source does not come before its target. -/
theorem length_returns_evaluationOrder (h : c.WellWired) :
    c.evaluationOrder.returns.length =
      c.wires.entries.countP fun w => ¬ Precedes c.evaluationOrder.closed w.source w.target :=
  (Traversal.length_returns c.supported_driverGraph _).trans
    (h.sum_lateEdges h.perm_closed_evaluationOrder)

/-- What is noted lies on a cycle of wires. -/
theorem path_of_mem_returns_evaluationOrder (h : c.WellWired)
    (ha : a ∈ c.evaluationOrder.returns) : c.readerGraph.Path a a :=
  h.path_readerGraph_iff.2 (Traversal.path_of_mem_returns c.supported_driverGraph ha)

/-- Nothing is noted exactly if the wires form no cycle. -/
theorem returns_evaluationOrder_eq_nil_iff (h : c.WellWired) :
    c.evaluationOrder.returns = [] ↔ c.readerGraph.Acyclic := by
  have hdrivers : c.driverGraph.Acyclic ↔ c.readerGraph.Acyclic :=
    forall_congr' fun a => not_congr h.path_readerGraph_iff.symm
  rw [← hdrivers]
  exact Traversal.returns_eq_nil_iff_acyclic c.supported_driverGraph fun a ha =>
    List.mem_append_right _ (h.mem_ids_of_path ha)

/-- The search for a cycle along the readers finds none exactly if there is none. -/
theorem hasCycle_eq_false_iff (h : c.WellWired) : c.hasCycle = false ↔ c.readerGraph.Acyclic := by
  have hnone : c.hasCycle = false ↔ (Traversal.ofStarts c.readerGraph c.ids).returns = [] := by
    simp [hasCycle, findCycle?]
  rw [hnone]
  exact Traversal.returns_eq_nil_iff_acyclic h.supported_readerGraph fun a => h.mem_ids_of_cycle

end WellWired

/-- The analysis warns of a loop exactly if there is a cycle. -/
theorem feedbackLoop_mem_warnings_iff (c : Circuit) :
    Warning.feedbackLoop ∈ c.warnings ↔ c.hasCycle = true := by
  simp only [warnings, List.mem_append, List.mem_map, reduceCtorEq, and_false, exists_false,
    false_or, or_false]
  split
  · simp_all
  · simp_all

end Circuit

/-- Strict loading fails because of a cycle exactly if the circuit with all wires of the document
has one. -/
theorem Document.toCircuit_strict_cycle_iff {d : Document} {base : Circuit}
    (hbase : Document.addComponents [] d.components .empty = .ok base) :
    (∃ id, d.toCircuit true = .error (.cycle id)) ↔
      (Document.forceWires base d.wires).hasCycle = true := by
  unfold toCircuit Circuit.hasCycle
  rw [hbase]
  cases hcycle : (forceWires base d.wires).findCycle? with
  | none => simp [hcycle]
  | some id => simp [hcycle]

/-- The circuit with all wires of a document is reachable. -/
theorem Document.reachable_forceWires {d : Document} {base : Circuit}
    (hbase : Document.addComponents [] d.components .empty = .ok base) :
    (Document.forceWires base d.wires).Reachable :=
  .new (((Document.run_addComponents hbase).mono fun _ _ => trivial).trans
    (Document.run_forceWires d.wires base))

/-- The order of evaluation of a reachable circuit lists every component once. The source of a
wire precedes its target, or follows it and is among the sources that are noted; there are as many
notes as wires whose source does not precede its target, and what is noted lies on a cycle.
Nothing is noted exactly if the search for a cycle finds none, if the analysis does not warn of a
loop and, in the circuit with all wires of a document, if strict loading does not refuse the
document for a cycle. -/
theorem evaluation_order_of_reachable (h : c.Reachable) :
    c.evaluationOrder.closed.Perm c.ids ∧ c.evaluationOrder.closed.Nodup ∧
    (∀ k w, c.wire? k = some w →
      Precedes c.evaluationOrder.closed w.source w.target ∨
        Precedes c.evaluationOrder.closed w.target w.source ∧
          w.source ∈ c.evaluationOrder.returns) ∧
    (c.evaluationOrder.returns.length =
      c.wires.entries.countP fun w => ¬ Precedes c.evaluationOrder.closed w.source w.target) ∧
    (∀ id ∈ c.evaluationOrder.returns, c.readerGraph.Path id id) ∧
    (c.evaluationOrder.returns = [] ↔ c.hasCycle = false) ∧
    (c.evaluationOrder.returns = [] ↔ Warning.feedbackLoop ∉ c.warnings) ∧
    (∀ (d : Document) (base : Circuit), Document.addComponents [] d.components .empty = .ok base →
      ((Document.forceWires base d.wires).evaluationOrder.returns = [] ↔
        ¬ ∃ id, d.toCircuit true = .error (.cycle id))) := by
  have hagree : ∀ {c : Circuit}, c.Reachable →
      (c.evaluationOrder.returns = [] ↔ c.hasCycle = false) := fun h =>
    h.wellWired.returns_evaluationOrder_eq_nil_iff.trans h.wellWired.hasCycle_eq_false_iff.symm
  have hwired := h.wellWired
  have hperm := hwired.perm_closed_evaluationOrder
  refine ⟨hperm, hperm.nodup_iff.2 c.nodup_ids,
    fun k w => hwired.precedes_or_precedes_evaluationOrder, hwired.length_returns_evaluationOrder,
    fun id => hwired.path_of_mem_returns_evaluationOrder, hagree h, ?_, fun d base hbase => ?_⟩
  · rw [hagree h, c.feedbackLoop_mem_warnings_iff, Bool.not_eq_true]
  · rw [hagree (Document.reachable_forceWires hbase), Document.toCircuit_strict_cycle_iff hbase,
      Bool.not_eq_true]

/-- The order of evaluation of the latch notes its loop. -/
theorem evaluation_order_latch : latch.Reachable ∧ latch.evaluationOrder.returns ≠ [] := by
  have hreach : latch.Reachable := reachable_applyAll _
  refine ⟨hreach, fun hnone => ?_⟩
  obtain ⟨_, _, _, _, _, hcycle, _, _⟩ := evaluation_order_of_reachable hreach
  have hacyclic := hreach.wellWired.hasCycle_eq_false_iff.1 (hcycle.1 hnone)
  exact hacyclic "p" (.cons (b := "q") (by decide +kernel) (.edge (by decide +kernel)))

end LogicCircuit
