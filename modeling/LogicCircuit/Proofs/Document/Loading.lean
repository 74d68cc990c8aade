import LogicCircuit.Proofs.Document.Components

/-!
# Strict loading

Strict loading forces all wires of a document onto a second circuit and refuses the document if
they form a cycle there. Loading that is not strict skips each wire that closes a cycle at its
turn. The main result `strict_load_of_lenient_load` compares the two: where strict loading refuses
a document some wire is skipped for a cycle, and the converse holds as long as the wires lead to
different slots. In `overwritten_loop` they do not: the wire that closes a cycle is skipped in the
one circuit and overwritten in the other, so strict loading accepts a document and leaves out one
of its wires.
-/

namespace LogicCircuit

open WireRecord (EndsApart)

namespace Document

variable {d : Document} {base : Circuit}

/-- Whether loading is strict makes no difference to what is loaded. -/
theorem toCircuit_of_addComponents (h : addComponents [] d.components .empty = .ok base) :
    d.toCircuit false = .ok (replayWires d.wires base) ∧
      (d.toCircuit true = .ok (replayWires d.wires base) ∨
        ∃ id, d.toCircuit true = .error (.cycle id)) := by
  constructor
  · simp [toCircuit, h]
  · cases hcycle : (forceWires base d.wires).findCycle? with
    | none => exact .inl (by simp [toCircuit, h, hcycle])
    | some id => exact .inr ⟨id, by simp [toCircuit, h, hcycle]⟩

/-- What loads strictly loads alike if cycles are skipped. -/
theorem lenient_of_strict {r : LoadReport × Circuit} (h : d.toCircuit true = .ok r) :
    d.toCircuit false = .ok r := by
  cases hbase : addComponents [] d.components .empty with
  | error e => simp [toCircuit, hbase] at h
  | ok base =>
      obtain ⟨hlenient, hstrict | ⟨id, hstrict⟩⟩ := toCircuit_of_addComponents hbase
      · rw [hlenient, ← hstrict, h]
      · cases hstrict.symm.trans h

/-- There are no wires yet when the components have been added. -/
theorem plain_driver_addComponents (h : addComponents [] d.components .empty = .ok base)
    (a : ComponentId) (i : Nat) : base.plain.driver a i = none := by
  have hwired : base.WellWired := (run_addComponents h).wellWired .empty
  refine Option.eq_none_iff_forall_ne_some.2 fun b hb => ?_
  obtain ⟨k, w, hw, -⟩ := hwired.plain_driver_iff.1 hb
  obtain ⟨xs, -, rfl, -⟩ := addComponents_eq_ok_iff.1 h
  cases Circuit.wire?_of_addAll hw

/-- Strict loading refuses a document exactly if its wires, when they are all forced, form a
cycle. -/
theorem strict_error_iff (h : addComponents [] d.components .empty = .ok base) :
    (∃ id, d.toCircuit true = .error (.cycle id)) ↔
      ¬ (forceWires base d.wires).readerGraph.Acyclic := by
  have hwired : base.WellWired := (run_addComponents h).wellWired .empty
  rw [toCircuit_strict_cycle_iff h, ← (wellWired_forceWires hwired d.wires).hasCycle_eq_false_iff,
    Bool.not_eq_false]

/-- A document that strict loading refuses has a wire that is skipped for a cycle otherwise:
without one, forcing the wires would lead to the loaded circuit, and that has no cycle. -/
theorem cutsCycle_of_strict_error (h : addComponents [] d.components .empty = .ok base)
    (hstrict : ∃ id, d.toCircuit true = .error (.cycle id)) :
    LoadReport.CutsCycle (replayWires d.wires base).1 := by
  by_contra hnone
  have hwired : base.WellWired := (run_addComponents h).wellWired .empty
  refine (strict_error_iff h).1 hstrict ?_
  rw [forceWires_eq_replayWires hwired hnone]
  exact acyclic_of_unforced (.loaded (.document (toCircuit_of_addComponents h).1) .refl)

/-- If the wires lead to different slots and one is skipped for a cycle, strict loading refuses
the document. -/
theorem strict_error_of_cutsCycle (h : addComponents [] d.components .empty = .ok base)
    (hapart : d.wires.Pairwise EndsApart)
    (hcut : LoadReport.CutsCycle (replayWires d.wires base).1) :
    ∃ id, d.toCircuit true = .error (.cycle id) := by
  have hwired : base.WellWired := (run_addComponents h).wellWired .empty
  have hfree : ∀ w ∈ d.wires, w.Directed → base.plain.driver w.target w.targetPort.index = none :=
    fun w _ _ => plain_driver_addComponents h _ _
  have hreplays := replays_replayWires hwired hapart hfree
  obtain ⟨w, hw, hflaw, hmissing⟩ := hreplays.exists_missing hcut
  exact (strict_error_iff h).2 (hreplays.not_acyclic hwired hapart hfree hw hflaw hmissing)

end Document

/-- Strict loading compared with loading that skips. A document whose components load does load if
cycles are skipped; strict loading then gives the same circuit and the same report, or refuses the
document for a cycle. If it does, some wire was skipped for a cycle. The converse holds if no two
of the wires from outputs to inputs lead to the same slot. -/
theorem strict_load_of_lenient_load {d : Document} {report : LoadReport} {c : Circuit}
    (h : d.toCircuit false = .ok (report, c)) :
    (d.toCircuit true = .ok (report, c) ∨ ∃ id, d.toCircuit true = .error (.cycle id)) ∧
    ((∃ id, d.toCircuit true = .error (.cycle id)) → report.CutsCycle) ∧
    (d.wires.Pairwise EndsApart →
      ((∃ id, d.toCircuit true = .error (.cycle id)) ↔ report.CutsCycle)) := by
  cases hbase : Document.addComponents [] d.components .empty with
  | error e => simp [Document.toCircuit, hbase] at h
  | ok base =>
      obtain ⟨hlenient, hstrict⟩ := Document.toCircuit_of_addComponents hbase
      have hreplay : Document.replayWires d.wires base = (report, c) :=
        Except.ok.inj (hlenient.symm.trans h)
      have hcut := Document.cutsCycle_of_strict_error hbase
      have hback := Document.strict_error_of_cutsCycle hbase
      rw [hreplay] at hstrict hcut hback
      exact ⟨hstrict, hcut, fun hapart => ⟨hcut, hback hapart⟩⟩

/-- The record of a wire to the first slot of a component. -/
def WireRecord.toFirst (id : WireId) (source target : ComponentId) : WireRecord :=
  ⟨id, source, ⟨.output, 0⟩, target, ⟨.input, 0⟩⟩

/-- Two inverters and a switch, with some wires. -/
def invertersAndSwitch (wires : List WireRecord) : Document where
  components := [.ofComponent ((Component.gate .not .origin).withId "a"),
    .ofComponent ((Component.gate .not .origin).withId "b"),
    .ofComponent ((Component.source .switch .origin).withId "s")]
  wires := wires

/-- Two inverters in a ring load with one wire skipped, and strict loading refuses them. -/
theorem strict_load_of_lenient_load_ring :
    let ring := invertersAndSwitch [.toFirst "1" "a" "b", .toFirst "2" "b" "a"]
    ∃ report c, ring.toCircuit false = .ok (report, c) ∧ report.CutsCycle ∧
      ∃ id, ring.toCircuit true = .error (.cycle id) := by
  intro ring
  have hload : (ring.toCircuit false).map (·.1) = .ok [("2", .wouldCreateCycle "b" "a")] := by
    decide +kernel
  obtain ⟨⟨report, c⟩, hc, hreport⟩ := ok_of_map_ok hload
  have hcut : report.CutsCycle :=
    ⟨_, hreport ▸ List.mem_singleton_self _, "b", "a", rfl⟩
  have hapart : ring.wires.Pairwise EndsApart := by decide +kernel
  exact ⟨report, c, hc, hcut, ((strict_load_of_lenient_load hc).2.2 hapart).2 hcut⟩

/-- Where the switch takes over from the wire that closes the ring, that wire is skipped although
loading is strict and accepts the document. -/
theorem overwritten_loop :
    let ring := invertersAndSwitch
      [.toFirst "1" "a" "b", .toFirst "2" "b" "a", .toFirst "3" "s" "a"]
    ∃ report c, ring.toCircuit true = .ok (report, c) ∧ ring.toCircuit false = .ok (report, c) ∧
      report = [("2", .wouldCreateCycle "b" "a")] ∧ report.CutsCycle := by
  intro ring
  have hload : (ring.toCircuit true).map (·.1) = .ok [("2", .wouldCreateCycle "b" "a")] := by
    decide +kernel
  obtain ⟨⟨report, c⟩, hc, hreport⟩ := ok_of_map_ok hload
  exact ⟨report, c, hc, Document.lenient_of_strict hc, hreport,
    ⟨_, hreport ▸ List.mem_singleton_self _, "b", "a", rfl⟩⟩

end LogicCircuit
