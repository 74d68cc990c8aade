import LogicCircuit.Proofs.Analysis.Likeness
import LogicCircuit.Proofs.Simulation.Listings
import LogicCircuit.Proofs.Table.Likeness

/-!
# How a circuit was built

Two circuits with the same components and the same driver on every slot may come from different
operations, and then their wires have other names, their counters stand elsewhere and their tables
list the records in another order. `construction_not_observable` says that nothing that is asked
of the circuits shows this. Each part is proved where the question is at home: for orders,
refusals and cycles see `Circuit.Alike`, for runs of simulators `Bench.Together`, for the order of
the records `Circuit.Listing`.
-/

namespace LogicCircuit

/-- How a circuit was built is not observable. Take two reachable circuits, which may have loops,
with the same components and the same driver on every slot. They have the same order of
evaluation. New simulators, any number of them with any settings, report the same for every
sequence of events that leaves the topology alone, and the components hold and show the same
afterwards; and on the way the order in which tables list the components and the wires cannot be
told from any answer. The circuits have the same truth table, the same expression for every name,
the same depth, warnings, suggestions and netlist, and the same wires are refused, for the same
reasons. -/
theorem construction_not_observable {c d : Circuit} (hc : c.Reachable) (hd : d.Reachable)
    (h : c.Alike d) :
    d.evaluationOrder = c.evaluationOrder ∧
    (∀ settings uses, (∀ use ∈ uses, Event.KeepsTopology use.event) →
      let b := (Bench.new settings c).performAll uses
      let b' := (Bench.new settings d).performAll uses
      (Bench.new settings d).answers uses = (Bench.new settings c).answers uses ∧
        b'.circuit.display = b.circuit.display ∧
        (∀ l : b.circuit.Listing, l.Harmless) ∧ ∀ l : b'.circuit.Listing, l.Harmless) ∧
    d.tabulate.1 = c.tabulate.1 ∧
    (∀ id, d.expr? id = c.expr? id) ∧
    d.depth = c.depth ∧ d.warnings = c.warnings ∧ d.suggestions = c.suggestions ∧
    Netlist.write d = Netlist.write c ∧
    ∀ source target slot reason, d.connect source target slot = .error reason ↔
      c.connect source target slot = .error reason := by
  have hwc := hc.wellWired
  have hwd := hd.wellWired
  refine ⟨h.evaluationOrder_eq, fun settings uses huses => ?_, h.tabulate_eq, h.expr?_eq hwc hwd,
    h.depth_eq hwc hwd, h.warnings_eq hwc hwd, h.suggestions_eq, h.write_eq hwc hwd,
    h.wireUp_eq_error_iff hwc hwd false⟩
  obtain ⟨hanswers, hend⟩ := (Bench.Together.of_alike h settings).performAll huses
  have hwired : ∀ {c : Circuit}, c.WellWired →
      ((Bench.new settings c).performAll uses).circuit.WellWired := fun hc =>
    hc.of_frame (Bench.frame_performAll _ huses)
  exact ⟨hanswers, (hend 0).display_eq, (hwired hwc).harmless, (hwired hwd).harmless⟩

/-- Edits of the latch that come to nothing: wires give way to new ones between the same ends, a
wire is taken off and put back, and a copy comes and goes. -/
def latchDetour : List Edit :=
  [.force "q" "p" 1, .force "p" "q" 1, .connect "set" "both" 1, .copy "q" "spare",
    .disconnect "connection-4", .connect "reset" "q" 0, .remove "spare"]

/-- The latch after the detour differs from the latch in its wires, its counter and its revision,
and no use of two simulators shows it. -/
theorem construction_not_observable_latch :
    let after := Edit.applyAll latchDetour latch
    latch.Reachable ∧ after.Reachable ∧ latch.Alike after ∧ latch.wires ≠ after.wires ∧
      latch.lastNumber ≠ after.lastNumber ∧ latch.revision ≠ after.revision ∧
      after.tabulate.1 = latch.tabulate.1 ∧
      let uses : List Use := [⟨0, .evaluate⟩, ⟨1, .tick 50⟩, ⟨0, .step⟩]
      (Bench.new (fun _ => .standard) after).answers uses =
        (Bench.new (fun _ => .standard) latch).answers uses := by
  intro after
  have hlatch : latch.Reachable := reachable_applyAll _
  have hrun : Run (fun _ => True) .empty latch := hlatch.run fun _ _ => trivial
  have hafter : after.Reachable := .new (hrun.trans (.applyAll (fun _ _ => trivial) latch))
  have halike : latch.Alike after := .of_entries (by decide +kernel) (by decide +kernel)
  have huses : ∀ use ∈ ([⟨0, .evaluate⟩, ⟨1, .tick 50⟩, ⟨0, .step⟩] : List Use),
      use.event.KeepsTopology := by
    simp [Event.KeepsTopology]
  obtain ⟨-, hruns, htable, -⟩ := construction_not_observable hlatch hafter halike
  exact ⟨hlatch, hafter, halike, by decide +kernel, by decide +kernel, by decide +kernel, htable,
    (hruns (fun _ => .standard) _ huses).1⟩

end LogicCircuit
