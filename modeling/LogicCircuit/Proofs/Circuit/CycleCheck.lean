import LogicCircuit.Proofs.Circuit.Objections
import LogicCircuit.Proofs.Graph.Cycle
import LogicCircuit.Proofs.Graph.Worklist

/-!
# The check before a wire is connected

`Circuit.connect` asks whether the target already leads to the source, and asks it while the wire
that has to give way is still there. The graph that counts is another one, `Circuit.rewired`: the
slot has been freed and the new wire is on it. The two questions have the same answer, because a
path from the target back to the source can be cut short so that it does not come back to the
target, and then it uses neither the old wire nor the new one (`path_rewired_iff`). The main
result `connect_check_exact` says that the check is exact for both, and that a search with a
worklist makes it.
-/

namespace LogicCircuit

variable {c d : Circuit} {a b source target : ComponentId} {slot : Nat} {k : WireId}

namespace Circuit

/-- The search with a worklist ends with the answer of the check, in whatever order the components
that each one drives are listed. -/
theorem WellWired.stops_worklist_iff (h : c.WellWired)
    {next : ComponentId → List ComponentId} (hnext : ∀ a, (next a).Perm (c.readerGraph.next a))
    {answer : Bool} : Stops (Worklist.step ⟨c.ids, next⟩ source) (.start target) answer ↔
      answer = c.wouldCreateCycle source target := by
  have hlisted : Graph.Reaches ⟨c.ids, next⟩ target source ↔
      c.readerGraph.Reaches target source := or_congr_right (path_listed_iff hnext)
  rw [Worklist.stops_start_iff (h.supported_listed hnext), hlisted, ← wouldCreateCycle_iff h]
  exact Bool.eq_iff_iff.symm

/-- The graph of the wires once a slot has been freed and a wire from `source` put on it. -/
def rewired (c : Circuit) (source target : ComponentId) (slot : Nat) : Graph ComponentId where
  nodes := c.ids
  next a :=
    (((c.fanout a).filter fun w => ¬ (w.target = target ∧ w.slot = slot)).map (·.target)) ++
      if a = source then [target] else []

/-- The edges are the wires that do not end on the slot, and the new wire. -/
theorem mem_next_rewired_iff : b ∈ (c.rewired source target slot).next a ↔
    (∃ k w, c.wire? k = some w ∧ ¬ (w.target = target ∧ w.slot = slot) ∧
      w.source = a ∧ w.target = b) ∨ a = source ∧ b = target := by
  have hnew : b ∈ (if a = source then [target] else []) ↔ a = source ∧ b = target := by
    split <;> simp_all
  rw [rewired, List.mem_append, hnew]
  refine or_congr_left ?_
  simp only [fanout, List.mem_map, List.mem_filter, decide_eq_true_eq, beq_iff_eq]
  constructor
  · rintro ⟨w, ⟨⟨hw, hsource⟩, hend⟩, htarget⟩
    exact ⟨w.id, w, Roster.mem_entries_iff.1 hw, hend, hsource, htarget⟩
  · rintro ⟨k, w, hw, hend, hsource, htarget⟩
    exact ⟨w, ⟨⟨(Roster.get?_eq_some_iff.1 hw).1, hsource⟩, hend⟩, htarget⟩

/-- A wire that is accepted makes this graph. -/
theorem WellWired.mem_next_wireUp_iff (h : c.WellWired) {loopsAllowed : Bool}
    (hd : c.wireUp loopsAllowed source target slot = .ok (k, d)) :
    b ∈ d.readerGraph.next a ↔ b ∈ (c.rewired source target slot).next a := by
  obtain ⟨-, rfl⟩ := wireUp_eq_ok hd
  rw [mem_next_readerGraph_iff, mem_next_rewired_iff]
  constructor
  · rintro ⟨j, w, hw, rfl, rfl⟩
    rcases wire?_attach_cases hw with ⟨-, rfl⟩ | hw
    · exact .inr ⟨rfl, rfl⟩
    · obtain ⟨hw, hend⟩ := h.wire?_free_eq_some_iff.1 hw
      exact .inl ⟨j, w, hw, hend, rfl, rfl⟩
  · rintro (⟨j, w, hw, hend, rfl, rfl⟩ | ⟨rfl, rfl⟩)
    · exact ⟨j, w, wire?_attach_of_wire? (h.wire?_free_eq_some_iff.2 ⟨hw, hend⟩), rfl, rfl⟩
    · exact ⟨_, _, by rw [wire?_attach, if_pos rfl], rfl, rfl⟩

/-- The wire that gives way and the new one both end at the target, so neither is needed on a way
from there. -/
theorem path_rewired_iff (hne : source ≠ target) :
    (c.rewired source target slot).Path target source ↔ c.readerGraph.Path target source := by
  have hedges : ∀ x y, y ≠ target →
      (y ∈ (c.rewired source target slot).next x ↔ y ∈ c.readerGraph.next x) := by
    intro x y hy
    rw [mem_next_rewired_iff, mem_next_readerGraph_iff]
    constructor
    · rintro (⟨j, w, hw, -, hsource, htarget⟩ | ⟨-, hnew⟩)
      · exact ⟨j, w, hw, hsource, htarget⟩
      · exact absurd hnew hy
    · rintro ⟨j, w, hw, hsource, rfl⟩
      exact .inl ⟨j, w, hw, fun hend => hy hend.1, hsource, rfl⟩
  exact ⟨fun hpath => hpath.of_edges_elsewhere hne.symm fun x y hy hne => (hedges x y hne).1 hy,
    fun hpath => hpath.of_edges_elsewhere hne.symm fun x y hy hne => (hedges x y hne).2 hy⟩

/-- The new wire lies on a cycle exactly if its target leads to its source. -/
theorem exists_isCycle_rewired_iff (hne : source ≠ target) :
    (∃ nodes, (c.rewired source target slot).IsCycle source (target :: nodes)) ↔
      c.readerGraph.Path target source := by
  have hnew : target ∈ (c.rewired source target slot).next source :=
    mem_next_rewired_iff.2 (.inr ⟨rfl, rfl⟩)
  rw [Graph.exists_isCycle_iff hne, path_rewired_iff hne]
  exact and_iff_right hnew

end Circuit

/-- The check that precedes a connection is exact. Let a wire be asked for from a component that
is not a sink to a slot of another component of a reachable circuit, which may have loops. The
check finds a cycle, and the wire is refused for one, exactly if wires lead from the target to the
source; otherwise the wire is connected. The search with a worklist ends with the answer of the
check. Wires lead back exactly if there is a cycle through the new wire once the slot has been
freed and the wire put on it, which is the graph that a connection leaves behind. -/
theorem connect_check_exact (h : c.Reachable) {s t : Component}
    (hs : c.component? source = some s) (ht : c.component? target = some t)
    (hne : source ≠ target) (hout : ¬ s.kind.isSink) (hslot : slot < t.arity) :
    (c.wouldCreateCycle source target = true ↔ c.readerGraph.Path target source) ∧
    (∀ next, (∀ a, (next a).Perm (c.readerGraph.next a)) → ∀ answer,
      Stops (Worklist.step ⟨c.ids, next⟩ source) (.start target) answer ↔
        answer = c.wouldCreateCycle source target) ∧
    (c.connect source target slot = .error (.wouldCreateCycle source target) ↔
      c.readerGraph.Path target source) ∧
    ((∃ k d, c.connect source target slot = .ok (k, d)) ↔
      ¬ c.readerGraph.Path target source) ∧
    ((∃ nodes, (c.rewired source target slot).IsCycle source (target :: nodes)) ↔
      c.readerGraph.Path target source) ∧
    ∀ k d, c.connect source target slot = .ok (k, d) ∨ c.force source target slot = .ok (k, d) →
      ∀ a b, b ∈ d.readerGraph.next a ↔ b ∈ (c.rewired source target slot).next a := by
  have hwired := h.wellWired
  have hreaches : c.readerGraph.Reaches target source ↔ c.readerGraph.Path target source :=
    or_iff_right hne.symm
  have hnone := Circuit.objection?_true_eq_none hs ht hne hout hslot
  obtain ⟨j, e, hforce, -⟩ := hwired.exists_force hnone
  refine ⟨(Circuit.wouldCreateCycle_iff hwired).trans hreaches,
    fun next hnext answer => hwired.stops_worklist_iff hnext, ?_, ?_,
    Circuit.exists_isCycle_rewired_iff hne, fun k d hd a b => ?_⟩
  · rcases hwired.connect_cases hnone with ⟨hback, hrefused⟩ | ⟨hback, hsame⟩
    · exact iff_of_true hrefused (hreaches.1 hback)
    · rw [hsame, hforce]
      exact iff_of_false nofun (mt hreaches.2 hback)
  · rcases hwired.connect_cases hnone with ⟨hback, hrefused⟩ | ⟨hback, hsame⟩
    · rw [hrefused]
      exact iff_of_false nofun (not_not_intro (hreaches.1 hback))
    · exact iff_of_true ⟨j, e, hsame.trans hforce⟩ (mt hreaches.2 hback)
  · exact hd.elim hwired.mem_next_wireUp_iff hwired.mem_next_wireUp_iff

/-- In the latch, a wire from the one gate to the other is refused although it would take the
place of one between the same two, and a wire that takes the place of the one that closes the loop
is connected. -/
theorem connect_check_exact_latch : latch.Reachable ∧
    latch.connect "p" "q" 1 = .error (.wouldCreateCycle "p" "q") ∧
    (∃ nodes, (latch.rewired "p" "q" 1).IsCycle "p" ("q" :: nodes)) ∧
    (∃ k d, latch.connect "reset" "p" 1 = .ok (k, d)) ∧
    ¬ ∃ nodes, (latch.rewired "reset" "p" 1).IsCycle "reset" ("p" :: nodes) := by
  have hreach : latch.Reachable := reachable_applyAll _
  obtain ⟨p, hp, hpshape⟩ := Option.map_eq_some_iff.1
    (by decide +kernel :
      (latch.component? "p").map (fun x => (x.kind.isSink, x.arity)) = some (false, 2))
  obtain ⟨q, hq, hqshape⟩ := Option.map_eq_some_iff.1
    (by decide +kernel : (latch.component? "q").map (·.arity) = some 2)
  obtain ⟨r, hr, hrshape⟩ := Option.map_eq_some_iff.1
    (by decide +kernel : (latch.component? "reset").map (·.kind.isSink) = some false)
  obtain ⟨hpout, hpslots⟩ := Prod.mk.inj hpshape
  have hqslot : 1 < q.arity := by rw [hqshape]; decide
  have hpslot : 1 < p.arity := by rw [hpslots]; decide
  obtain ⟨-, -, hrefused, -, hcycle, -⟩ := connect_check_exact hreach hp hq (by decide)
    (by simp [hpout]) hqslot
  obtain ⟨hcheck, -, -, hconnected, hnone, -⟩ := connect_check_exact hreach hr hp (by decide)
    (by simp [hrshape]) hpslot
  have hback : latch.readerGraph.Path "q" "p" := .edge (by decide +kernel)
  have hfree : ¬ latch.readerGraph.Path "p" "reset" := by
    rw [← hcheck]
    decide +kernel
  exact ⟨hreach, hrefused.2 hback, hcycle.2 hback, hconnected.2 hfree, mt hnone.1 hfree⟩

end LogicCircuit
