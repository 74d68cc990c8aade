import LogicCircuit.Proofs.Circuit.Origins
import LogicCircuit.Proofs.Graph.StackSearch
import LogicCircuit.Proofs.Simulation.Order

/-!
# The search for feedback

The components that one component drives come out of a table without an order, so the search for a
cycle must be right whichever order they come in. `Circuit.findCycleAlong` takes that order as
given, and `Circuit.findCycle?` is the case in which it is the order of the wires. The main result
`cycle_search_exact` says that the search ends, that it finds a component exactly if the wires
form a cycle, and that the component lies on one.
-/

namespace LogicCircuit

variable {c : Circuit} {next : ComponentId → List ComponentId}

namespace Circuit

/-- The first component that a walk along the wires meets again while it is open, where `next`
lists the components that each one drives. -/
def findCycleAlong (c : Circuit) (next : ComponentId → List ComponentId) : Option ComponentId :=
  (Traversal.ofStarts ⟨c.ids, next⟩ c.ids).returns.head?

namespace WellWired

/-- A search finds nothing exactly if there is no cycle to find. -/
theorem findCycleAlong_eq_none_iff (h : c.WellWired)
    (hnext : ∀ a, (next a).Perm (c.readerGraph.next a)) :
    c.findCycleAlong next = none ↔ c.readerGraph.Acyclic := by
  have hlisted : Graph.Acyclic ⟨c.ids, next⟩ ↔ c.readerGraph.Acyclic :=
    forall_congr' fun a => not_congr (path_listed_iff hnext)
  rw [findCycleAlong, List.head?_eq_none_iff, ← hlisted]
  exact Traversal.returns_eq_nil_iff_acyclic (h.supported_listed hnext) fun a ha =>
    h.mem_ids_of_cycle ((path_listed_iff hnext).1 ha)

/-- What a search finds lies on a cycle. -/
theorem path_of_findCycleAlong (h : c.WellWired)
    (hnext : ∀ a, (next a).Perm (c.readerGraph.next a)) {id : ComponentId}
    (hfound : c.findCycleAlong next = some id) : c.readerGraph.Path id id := by
  have hmet := Traversal.path_of_mem_returns (h.supported_listed hnext)
    (List.mem_of_mem_head? (Option.mem_def.2 hfound))
  exact (path_listed_iff hnext).1 hmet

end WellWired

end Circuit

/-- The search for a cycle is sound and complete. Take a reachable circuit, which may have loops,
and list the components that each one drives in any order. The search with a stack ends, and its
answer is what the walk meets first. There is no answer exactly if the wires form no cycle, and if
a component is the answer then wires lead from it back to itself. Where the components are listed
in the order of the wires this is `Circuit.findCycle?`. -/
theorem cycle_search_exact (h : c.Reachable)
    (hnext : ∀ a, (next a).Perm (c.readerGraph.next a)) :
    (∀ answer, Stops (StackSearch.step ⟨c.ids, next⟩) (.start c.ids) answer ↔
      answer = c.findCycleAlong next) ∧
    (c.findCycleAlong next = none ↔ c.readerGraph.Acyclic) ∧
    (∀ id, c.findCycleAlong next = some id → c.readerGraph.Path id id) ∧
    (next = c.readerGraph.next → c.findCycleAlong next = c.findCycle?) := by
  have hwired := h.wellWired
  refine ⟨fun answer => StackSearch.stops_start_iff (hwired.supported_listed hnext),
    hwired.findCycleAlong_eq_none_iff hnext, fun id => hwired.path_of_findCycleAlong hnext, ?_⟩
  rintro rfl
  rfl

/-- In the latch, with the components that each one drives in reverse, the search comes to the
loop of the two gates. -/
theorem cycle_search_exact_latch : latch.Reachable ∧
    Stops (StackSearch.step ⟨latch.ids, fun a => (latch.readerGraph.next a).reverse⟩)
      (.start latch.ids) (some "p") ∧
    latch.readerGraph.Path "p" "p" := by
  have hreach : latch.Reachable := reachable_applyAll _
  have hreverse : ∀ a, ((latch.readerGraph.next a).reverse).Perm (latch.readerGraph.next a) :=
    fun a => List.reverse_perm _
  obtain ⟨hanswers, -, hcycle, -⟩ := cycle_search_exact hreach hreverse
  have hfound :
      latch.findCycleAlong (fun a => (latch.readerGraph.next a).reverse) = some "p" := by
    decide +kernel
  exact ⟨hreach, (hanswers _).2 hfound.symm, hcycle "p" hfound⟩

end LogicCircuit
