import LogicCircuit.Proofs.Circuit.CycleCheck
import LogicCircuit.Proofs.Circuit.CycleSearch
import LogicCircuit.Proofs.Simulation.Clocks

/-!
# Components and wires in any order

A table without an order gives its records in some order that depends on how it came about. A
`Circuit.Listing` is the components and the wires of a circuit in such an order. Nothing that is
asked of a circuit depends on it: what is listed is sorted by name first, the searches along the
wires have an answer that does not depend on the order of the edges, and a tick may toggle the
clocks in any order. `Circuit.WellWired.harmless` puts this together.
-/

namespace LogicCircuit

/-- Records in any order are, sorted by name, those that the roster lists. -/
theorem Roster.mergeSort_eq_entries {α : Type} {name : α → String} (r : Roster name) {xs : List α}
    (h : xs.Perm r.entries) : xs.mergeSort (fun x y => name x ≤ name y) = r.entries := by
  have htrans : ∀ x y z : α, decide (name x ≤ name y) = true → decide (name y ≤ name z) = true →
      decide (name x ≤ name z) = true := fun x y z hxy hyz =>
    decide_eq_true (String.le_trans (of_decide_eq_true hxy) (of_decide_eq_true hyz))
  have htotal : ∀ x y : α, (decide (name x ≤ name y) || decide (name y ≤ name x)) = true :=
    fun x y => by simpa using String.le_total (name x) (name y)
  have hsorted : (xs.mergeSort fun x y => name x ≤ name y).Pairwise fun x y => name x ≤ name y :=
    (List.pairwise_mergeSort htrans htotal xs).imp of_decide_eq_true
  have hperm := (List.mergeSort_perm xs fun x y => name x ≤ name y).trans h
  refine List.Perm.eq_of_pairwise (fun x y hx hy hxy hyx => ?_) hsorted
    (r.increasing.imp Std.le_of_lt) hperm
  -- the roster looks up one record under the name that both have
  have hname : name x = name y := String.le_antisymm hxy hyx
  have hlookx := mem_entries_iff.1 (hperm.mem_iff.1 hx)
  have hlooky := mem_entries_iff.1 hy
  exact Option.some.inj ((hname ▸ hlookx).symm.trans hlooky)

namespace Circuit

variable {c : Circuit}

/-- The components and the wires of a circuit in some order. -/
structure Listing (c : Circuit) where
  /-- The components. -/
  components : List Component
  /-- The wires. -/
  wires : List Wire
  /-- The components are those of the circuit. -/
  components_perm : components.Perm c.components.entries
  /-- The wires are those of the circuit. -/
  wires_perm : wires.Perm c.wires.entries

namespace Listing

/-- The components that one component drives, in the order of the listing. -/
def readers (l : c.Listing) (id : ComponentId) : List ComponentId :=
  (l.wires.filter (·.source == id)).map (·.target)

/-- A tick that goes through the components in the order of the listing and sorts the names of the
clocks when it is done. -/
def tick (l : c.Listing) (s : Simulator) (now : Float) : TickReport × Simulator × Circuit :=
  let (clocks, toggled) := toggleInTurn now (l.components.map (·.id)) c
  Simulator.conclude (clocks.mergeSort (· ≤ ·)) ({ s with lastTime := now }.evaluate toggled)

/-- The order of the listing cannot be told from any answer. -/
structure Harmless (l : c.Listing) : Prop where
  /-- Sorted by name, the components come in the order of the roster. -/
  components : l.components.mergeSort (fun x y => x.id ≤ y.id) = c.components.entries
  /-- Sorted by name, the wires come in the order of the roster. -/
  wires : l.wires.mergeSort (fun v w => v.id ≤ w.id) = c.wires.entries
  /-- The search that precedes a connection has the answer of the check. -/
  check : ∀ source target answer,
    Stops (Worklist.step ⟨c.ids, l.readers⟩ source) (.start target) answer ↔
      answer = c.wouldCreateCycle source target
  /-- The search for feedback ends, and finds something exactly if there is a cycle. -/
  feedback :
    ∃ found, (∀ answer, Stops (StackSearch.step ⟨c.ids, l.readers⟩) (.start c.ids) answer ↔
    answer = found) ∧ found.isSome = c.hasCycle
  /-- A tick along the listing reports and leaves what a tick does. -/
  tick : ∀ s now, l.tick s now = s.tick c now

variable (l : c.Listing)

theorem perm_readers (id : ComponentId) : (l.readers id).Perm (c.readerGraph.next id) :=
  (l.wires_perm.filter _).map _

theorem tick_eq (s : Simulator) (now : Float) : l.tick s now = s.tick c now := by
  obtain ⟨hclocks, htoggled⟩ : (toggleInTurn now (l.components.map (·.id)) c).1.Perm
      (c.dueClocks now) ∧ _ = c.toggleClocks now :=
    toggleInTurn_eq (l.components_perm.map (·.id))
  have hsorted : _ = c.dueClocks now := Roster.mergeSort_eq_entries
    (⟨c.dueClocks now, c.pairwise_dueClocks now⟩ : Roster (id : ComponentId → String)) hclocks
  have hpass := congrArg ({ s with lastTime := now } : Simulator).evaluate htoggled
  rw [Simulator.tick_eq]
  exact congrArg₂ Simulator.conclude hsorted hpass

end Listing

/-- The order in which the components and the wires of a well-wired circuit come cannot be told
from any answer. -/
theorem WellWired.harmless (h : c.WellWired) (l : c.Listing) : l.Harmless where
  components := c.components.mergeSort_eq_entries l.components_perm
  wires := c.wires.mergeSort_eq_entries l.wires_perm
  check _ _ _ := h.stops_worklist_iff l.perm_readers
  feedback := by
    refine ⟨c.findCycleAlong l.readers,
      fun answer => StackSearch.stops_start_iff (h.supported_listed l.perm_readers), ?_⟩
    rw [Bool.eq_iff_iff, ← not_iff_not, Bool.not_eq_true, Bool.not_eq_true,
      Option.isSome_eq_false_iff, Option.isNone_iff_eq_none,
      h.findCycleAlong_eq_none_iff l.perm_readers, h.hasCycle_eq_false_iff]
  tick := l.tick_eq

end Circuit

end LogicCircuit
