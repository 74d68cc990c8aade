import LogicCircuit.Proofs.Graph.LateEdges
import LogicCircuit.Proofs.Simulation.Denotation

/-!
# Feedback

Where wires form a loop, one of them comes from a component that has its turn after the component
that it leads to. Such a wire is stale: what is read from it in a pass is the output from before
the pass. `WellWired.perm_sources_stale` says that the order of evaluation notes these wires and
no other, and `WellWired.reads_evaluate` what a component reads slot by slot. The main result
`feedback_stale_by_one_pass` puts this together for a pass of a simulator over a circuit in any
state.
-/

namespace LogicCircuit

variable {c d : Circuit} {order : List ComponentId}

/-- The source of the wire has its turn after the target. -/
def Wire.Stale (order : List ComponentId) (w : Wire) : Prop := Precedes order w.target w.source

instance (order : List ComponentId) (w : Wire) : Decidable (w.Stale order) :=
  inferInstanceAs (Decidable (Precedes _ _ _))

namespace Circuit

/-- What a component has on its slots in a pass from `before` to `after`: nothing on an empty
slot, the old output of the driver on a stale wire and the new output on any other. -/
structure ReadsInPass (before after : Circuit) (order : List ComponentId) (x : Component)
    (bits : List Bool) : Prop where
  /-- There is one bit for each input. -/
  length : bits.length = x.kind.arity
  /-- An empty slot reads as false. -/
  empty : ∀ i : Nat, x.slots[i]? = some none → bits[i]? = some false
  /-- A wire is read before or after its source has had its turn. -/
  driven : ∀ (i : Nat) k, x.slots[i]? = some (some k) → ∃ w, before.wire? k = some w ∧
    w.target = x.id ∧ w.slot = i ∧
    bits[i]? = some (if w.Stale order then before.outputOf (some w.source)
      else after.outputOf (some w.source))

namespace WellWired

/-- Wires end at components. -/
theorem target_mem (h : c.WellWired) (horder : order.Perm c.ids) {k : WireId} {w : Wire}
    (hw : c.wire? k = some w) : w.target ∈ order := by
  obtain ⟨t, ht, -⟩ := h.target hw
  exact horder.mem_iff.2 (mem_ids_iff.2 ⟨t, ht⟩)

/-- In an order of all components a wire is stale exactly if its source does not come first. -/
theorem stale_iff (h : c.WellWired) (horder : order.Perm c.ids) {k : WireId} {w : Wire}
    (hw : c.wire? k = some w) : w.Stale order ↔ ¬ Precedes order w.source w.target :=
  (not_precedes_iff (h.target_mem horder hw) (h.distinct hw).symm).symm

/-- The late edges of an order of all components are the stale wires. -/
theorem perm_lateNext (h : c.WellWired) (horder : order.Perm c.ids) :
    (order.flatMap (Traversal.lateNext c.driverGraph order)).Perm
      ((c.wires.entries.filter (·.Stale order)).map (·.source)) := by
  refine List.perm_iff_count.2 fun b => ?_
  let fromLate : Wire → Bool := fun w =>
    w.source == b && decide (¬ Precedes order w.source w.target)
  have hlate : ∀ a, (Traversal.lateNext c.driverGraph order a).count b =
      (c.wires.entries.filter fun w => w.target = a).countP fromLate := by
    intro a
    unfold Traversal.lateNext
    rw [((h.perm_next_driverGraph a).filter _).count_eq, List.count, List.countP_filter,
      List.countP_map]
    refine List.countP_congr fun w hw => ?_
    have htarget := of_decide_eq_true (List.mem_filter.1 hw).2
    simp [fromLate, htarget]
  have htargets : ∀ w ∈ c.wires.entries, w.target ∈ order := fun w hw =>
    h.target_mem horder (Roster.mem_entries_iff.1 hw)
  calc (order.flatMap (Traversal.lateNext c.driverGraph order)).count b
      = (order.map fun a =>
          (c.wires.entries.filter fun w => w.target = a).countP fromLate).sum := by
        rw [List.count_flatMap]
        exact congrArg List.sum (List.map_congr_left fun a _ => hlate a)
    _ = c.wires.entries.countP fromLate :=
        sum_countP_target _ (horder.nodup_iff.2 c.nodup_ids) htargets
    _ = ((c.wires.entries.filter (·.Stale order)).map (·.source)).count b := by
        rw [List.count, List.countP_map, List.countP_filter]
        refine List.countP_congr fun w hw => ?_
        simp [fromLate, h.stale_iff horder (Roster.mem_entries_iff.1 hw)]

/-- The notes of the order of evaluation are the sources of the stale wires, one for each wire. -/
theorem perm_sources_stale (h : c.WellWired) : c.evaluationOrder.returns.Perm
    ((c.wires.entries.filter (·.Stale c.evaluationOrder.closed)).map (·.source)) :=
  (Traversal.meetings_ofStarts c.supported_driverGraph _).trans
    (h.perm_lateNext h.perm_closed_evaluationOrder)

/-- A stale wire closes a loop: wires lead from its target back to its source. -/
theorem path_of_stale (h : c.WellWired) {k : WireId} {w : Wire} (hw : c.wire? k = some w)
    (hstale : w.Stale c.evaluationOrder.closed) : c.readerGraph.Path w.target w.source := by
  have hperm := h.perm_closed_evaluationOrder
  have hedge : w.source ∈ c.driverGraph.next w.target :=
    h.mem_next_driverGraph_iff.2 (mem_next_readerGraph_iff.2 ⟨k, w, hw, rfl, rfl⟩)
  have hlate : w.source ∈
      Traversal.lateNext c.driverGraph c.evaluationOrder.closed w.target :=
    List.mem_filter.2 ⟨hedge, decide_eq_true ((h.stale_iff hperm hw).1 hstale)⟩
  exact h.path_readerGraph_iff.2
    (Traversal.path_of_mem_lateNext c.supported_driverGraph (h.target_mem hperm hw) hlate)

/-- A pass evaluates each component on what it reads. -/
theorem reads_evaluate (h : c.WellWired) {s : Simulator} (hs : s.BelongsTo c) {id : ComponentId}
    {x : Component} (hx : c.component? id = some x) :
    ∃ bits, c.ReadsInPass (s.evaluate c).2.2 c.evaluationOrder.closed x bits ∧
      (s.evaluate c).2.2.component? id = some (x.evaluate bits) := by
  refine ⟨_, ⟨?length, ?empty, ?driven⟩, h.component?_evaluate hs hx⟩
  case length => rw [List.length_map, h.length_driversOf hx]
  case empty =>
    intro i hi
    rw [driversOf_of_component? hx, List.map_map, List.getElem?_map, hi]
    rfl
  case driven =>
    intro i k hi
    obtain ⟨w, hw, htarget, hslot⟩ := h.slot hx hi
    have hid : x.id = id := Roster.name_of_get? hx
    have hstale := h.stale_iff h.perm_closed_evaluationOrder hw
    refine ⟨w, hw, htarget.trans hid.symm, hslot, ?_⟩
    have hdriver : c.driver? (some k) = some w.source := by
      simp [driver?, hw]
    rw [driversOf_of_component? hx, List.map_map, List.getElem?_map, hi, Option.map_some,
      Function.comp_apply, hdriver, readDuring, ← htarget]
    simp only [hstale, ite_not]

end WellWired

end Circuit

/-- A pass evaluates each component of a well-wired circuit once. -/
theorem Simulator.BelongsTo.evaluations_evaluate {s : Simulator} (hs : s.BelongsTo c)
    (h : c.WellWired) : (s.evaluate c).2.1.evaluations = s.evaluations + c.components.size := by
  have hperm := h.perm_closed_evaluationOrder
  have hall : ∀ id ∈ c.evaluationOrder.closed, c.components.contains id := by
    intro id hid
    obtain ⟨x, hx⟩ := Circuit.mem_ids_iff.1 (hperm.mem_iff.1 hid)
    exact Option.isSome_iff_exists.2 ⟨x, hx⟩
  have hcount : c.evaluationOrder.closed.countP c.components.contains = c.components.size := by
    rw [List.countP_eq_length.2 hall, hperm.length_eq, Circuit.ids, List.length_map, Roster.size]
  have hbefore : (s.refresh c).evaluations = s.evaluations := by
    unfold refresh
    split <;> rfl
  show (s.refresh c).evaluations + (s.refresh c).order.closed.countP c.components.contains = _
  rw [hbefore, hs.order_refresh rfl, hcount]

/-- Feedback is stale by one pass, and only where the order of evaluation notes a loop. Take a
reachable circuit, with any loops, and the same circuit in any state, and let a simulator that
belongs to the circuit make a pass over it. The pass goes through each component once. A component
is evaluated on what it reads: false on an empty slot, the output from before the pass on a wire
whose source comes later in the order, and the output of this pass on every other wire. The wires
of the former kind are as many as the notes of the order, the notes are their sources, and each of
them closes a loop. -/
theorem feedback_stale_by_one_pass (h : c.Reachable) (hd : d.frame = c.frame) {s : Simulator}
    (hs : s.BelongsTo c) :
    let order := (s.refresh d).order
    let after := (s.evaluate d).2.2
    order = c.evaluationOrder ∧ order.closed.Perm d.ids ∧ order.closed.Nodup ∧
    (s.evaluate d).2.1.evaluations = s.evaluations + d.components.size ∧
    (∀ id x, d.component? id = some x → ∃ bits, d.ReadsInPass after order.closed x bits ∧
      after.component? id = some (x.evaluate bits) ∧ (x.evaluate bits).Answers x.kind bits) ∧
    (d.wires.entries.countP (·.Stale order.closed) = order.returns.length) ∧
    order.returns.Perm ((d.wires.entries.filter (·.Stale order.closed)).map (·.source)) ∧
    ∀ k w, d.wire? k = some w → w.Stale order.closed → d.readerGraph.Path w.target w.source := by
  intro order after
  have hwired := h.wellWired.of_frame hd
  have hbelongs := hs.of_frame hd
  have horder : order = d.evaluationOrder := hbelongs.order_refresh rfl
  have hperm := hwired.perm_closed_evaluationOrder
  have hnotes := hwired.perm_sources_stale
  rw [horder]
  refine ⟨Circuit.evaluationOrder_of_frame hd, hperm, hperm.nodup_iff.2 d.nodup_ids,
    hbelongs.evaluations_evaluate hwired, fun id x hx => ?_, ?_, hnotes,
    fun k w hw => hwired.path_of_stale hw⟩
  · obtain ⟨bits, hreads, hafter⟩ := hwired.reads_evaluate hbelongs hx
    exact ⟨bits, hreads, hafter, (hwired.formed hx).answers_evaluate hreads.length⟩
  · rw [hnotes.length_eq, List.length_map, List.countP_eq_length_filter]

/-- A pass over the latch with all outputs on before: the gate that closes the loop reads the
switch from this pass and the other gate from before it, although that one is off after the pass.
-/
theorem feedback_stale_by_one_pass_latch : latch.Reachable ∧
    let before := latch.withOutputs fun _ => true
    let after := (Simulator.new.evaluate before).2.2
    before.wires.entries.countP (·.Stale latch.evaluationOrder.closed) = 1 ∧
    ∃ q, after.component? "q" = some q ∧ q.Answers (.gate .nor) [false, true] ∧
      after.outputOf (some "p") = false := by
  have hreach : latch.Reachable := reachable_applyAll _
  refine ⟨hreach, ?_⟩
  intro before after
  have hframe : before.frame = latch.frame := latch.frame_withOutputs _
  obtain ⟨horder, -, -, -, hvalues, hcount, -⟩ :=
    feedback_stale_by_one_pass hreach hframe (Simulator.belongsTo_new latch)
  rw [horder] at hvalues hcount
  obtain ⟨q, hq, hqshape⟩ := Option.map_eq_some_iff.1
    (by decide +kernel : (before.component? "q").map (fun x => (x.kind, x.slots)) =
      some (.gate .nor, [some "connection-4", some "connection-3"]))
  obtain ⟨hkind, hslots⟩ := Prod.mk.inj hqshape
  obtain ⟨bits, hreads, hafter, hanswers⟩ := hvalues "q" q hq
  have hlength : bits.length = 2 := by rw [hreads.length, hkind]; rfl
  obtain ⟨a, b, rfl⟩ := List.length_eq_two.1 hlength
  obtain ⟨v, hv, -, -, hfirst⟩ := hreads.driven 0 "connection-4" (by rw [hslots]; rfl)
  obtain ⟨w, hw, -, -, hsecond⟩ := hreads.driven 1 "connection-3" (by rw [hslots]; rfl)
  have hreset : before.wire? "connection-4" = some ⟨"connection-4", "reset", "q", 0⟩ := by
    decide +kernel
  have hloop : before.wire? "connection-3" = some ⟨"connection-3", "p", "q", 1⟩ := by
    decide +kernel
  obtain rfl := Option.some.inj (hv.symm.trans hreset)
  obtain rfl := Option.some.inj (hw.symm.trans hloop)
  -- the switch has had its turn, the other gate has not
  have hfresh :
      ¬ (⟨"connection-4", "reset", "q", 0⟩ : Wire).Stale latch.evaluationOrder.closed := by
    decide +kernel
  have hstale : (⟨"connection-3", "p", "q", 1⟩ : Wire).Stale latch.evaluationOrder.closed := by
    decide +kernel
  rw [if_neg hfresh] at hfirst
  rw [if_pos hstale] at hsecond
  have hoff : after.outputOf (some "reset") = false := by decide +kernel
  have hon : before.outputOf (some "p") = true := by decide +kernel
  obtain rfl : a = false := (Option.some.inj hfirst).trans hoff
  obtain rfl : b = true := (Option.some.inj hsecond).trans hon
  refine ⟨hcount.trans (by decide +kernel), _, hafter, hkind ▸ hanswers, by decide +kernel⟩

end LogicCircuit
