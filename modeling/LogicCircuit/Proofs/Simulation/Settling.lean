import LogicCircuit.Proofs.Simulation.Changes
import LogicCircuit.Proofs.Simulation.Mirrors
import LogicCircuit.Proofs.Simulation.Oscillation

/-!
# Circuits that settle in one pass

After a pass over a circuit without cycles the next pass finds the same bits on all slots, and to
evaluate a component twice on the same bits adds nothing: only the history of a probe and the flag
of a change move (`Component.lasting_evaluate_evaluate`). So the second pass reports no change,
and where no clock runs neither does any later tick: `settles_in_one_pass`.
-/

namespace LogicCircuit

/-- A kind without what a probe remembers. -/
def Kind.lasting : Kind → Kind
  | sink s => sink ⟨s.kind.blank, s.bits⟩
  | k => k

/-- A component without what moves at every evaluation: the history of a probe and the flag. -/
def Component.lasting (x : Component) : Component :=
  { x with kind := x.kind.lasting, changed := false }

/-- A circuit without what moves at every pass. -/
def Circuit.lasting (c : Circuit) : Circuit :=
  { c with components := c.components.map (·.lasting) fun _ => rfl }

/-- Bits that arrive once more take the place of themselves. -/
theorem Sink.overwrite_overwrite (old new : List Bool) :
    overwrite (overwrite old new) new = overwrite old new := by
  induction old generalizing new with
  | nil => cases new <;> rfl
  | cons b old ih =>
      cases new with
      | nil => rfl
      | cons a new => rw [overwrite, overwrite, ih]

namespace Component

/-- A history does not show. -/
theorem value_lasting (x : Component) : x.lasting.value = x.value := by
  obtain ⟨_, kind, _⟩ := x
  cases kind with
  | gate g => rfl
  | source s => rfl
  | sink s =>
      obtain ⟨kind, bits⟩ := s
      cases kind <;> rfl

theorem source?_lasting (x : Component) : x.lasting.kind.source? = x.kind.source? := by
  obtain ⟨_, kind, _⟩ := x
  cases kind <;> rfl

theorem frame_lasting (x : Component) : x.lasting.frame = x.frame := by
  obtain ⟨_, kind, _⟩ := x
  cases kind with
  | gate g => rfl
  | source s => rfl
  | sink s =>
      obtain ⟨kind, bits⟩ := s
      cases kind <;> rfl

/-- To evaluate a component once more on the same bits adds nothing that lasts. -/
theorem lasting_evaluate_evaluate (x : Component) (bits : List Bool) :
    ((x.evaluate bits).evaluate bits).lasting = (x.evaluate bits).lasting := by
  obtain ⟨id, kind, position, label, slots, output, changed⟩ := x
  cases kind with
  | gate g => rfl
  | source s => rfl
  | sink s =>
      obtain ⟨kind, old⟩ := s
      have hbits := Sink.overwrite_overwrite old bits
      cases kind <;>
        simp only [evaluate, lasting, Kind.lasting, Sink.receive, SinkKind.remember,
          SinkKind.blank, Sink.value, hbits]

/-- The flag goes down when a component is evaluated once more on the same bits. -/
theorem changed_evaluate_evaluate (x : Component) (bits : List Bool) :
    ((x.evaluate bits).evaluate bits).changed = false := by
  have hvalue : ((x.evaluate bits).evaluate bits).value = (x.evaluate bits).value := by
    rw [← value_lasting, lasting_evaluate_evaluate, value_lasting]
  rw [Bool.eq_false_iff, Ne, (x.agrees_evaluate bits).changed_evaluate_iff, not_not]
  exact hvalue

end Component

namespace Circuit

variable {c d : Circuit}

/-- The components that a pass in the order of evaluation changes. -/
def changes (c : Circuit) : List ComponentId := (c.evaluateAll c.evaluationOrder.closed).1

theorem component?_lasting (c : Circuit) (id : ComponentId) :
    c.lasting.component? id = (c.component? id).map (·.lasting) :=
  Roster.get?_map c.components (·.lasting) (fun _ => rfl) id

/-- What is asked of a component is told from what lasts. -/
theorem shown_lasting (c : Circuit) (id : ComponentId) :
    (c.lasting.component? id).map (fun x => (x.output, x.value, x.kind.source?)) =
      (c.component? id).map fun x => (x.output, x.value, x.kind.source?) := by
  rw [component?_lasting, Option.map_map]
  refine Option.map_congr fun x _ => ?_
  simp only [Function.comp_apply, Component.value_lasting, Component.source?_lasting]
  rfl

theorem frame_lasting (c : Circuit) : c.lasting.frame = c.frame :=
  frame_map c _ _ Component.frame_lasting

/-! ## The second pass -/

/-- A pass over a circuit without cycles evaluates each component on the values of its drivers. -/
theorem WellWired.component?_pass (h : c.WellWired) (hacyclic : c.readerGraph.Acyclic)
    (id : ComponentId) :
    c.pass.component? id = (c.component? id).map (·.evaluate (c.denotedInputs id)) := by
  cases hx : c.component? id with
  | none => exact component?_eq_none_of_frame c.frame_pass hx
  | some x =>
      rw [← pass_eq_evaluate]
      exact h.evaluate_of_acyclicCone (Simulator.belongsTo_new c) hx (h.acyclicCone hacyclic id)

/-- A pass keeps the values of all drivers. -/
theorem denotedInputs_pass (c : Circuit) (id : ComponentId) :
    c.pass.denotedInputs id = c.denotedInputs id := by
  have hlevels : ∀ a, c.pass.level? a = c.level? a := fun a => by
    rw [← pass_eq_evaluate, level?_evaluate]
  rw [denotedInputs, denotedInputs, driversOf_of_frame c.frame_pass]
  refine List.map_congr_left fun driver _ => ?_
  cases driver with
  | none => rfl
  | some a => exact denote_eq_of_levels c.frame_pass hlevels a

/-- The second pass evaluates each component on the bits that it had in the first one. -/
theorem WellWired.component?_pass_pass (h : c.WellWired) (hacyclic : c.readerGraph.Acyclic)
    (id : ComponentId) : c.pass.pass.component? id =
      (c.component? id).map fun x =>
        (x.evaluate (c.denotedInputs id)).evaluate (c.denotedInputs id) := by
  have hacyclic' : c.pass.readerGraph.Acyclic := by rwa [readerGraph_of_frame c.frame_pass]
  rw [(h.of_frame c.frame_pass).component?_pass hacyclic', h.component?_pass hacyclic,
    denotedInputs_pass, Option.map_map]
  rfl

/-- The second pass adds nothing that lasts. -/
theorem WellWired.lasting_pass_pass (h : c.WellWired) (hacyclic : c.readerGraph.Acyclic) :
    c.pass.pass.lasting = c.pass.lasting := by
  refine eq_of_component? ?_ fun id => ?_
  · rw [frame_lasting, frame_lasting, frame_pass]
  · rw [component?_lasting, component?_lasting, h.component?_pass_pass hacyclic,
      h.component?_pass hacyclic, Option.map_map, Option.map_map]
    exact Option.map_congr fun x _ => x.lasting_evaluate_evaluate _

/-- The second pass changes nothing. -/
theorem WellWired.changes_pass (h : c.WellWired) (hacyclic : c.readerGraph.Acyclic) :
    c.pass.changes = [] := by
  have hperm := (h.of_frame c.frame_pass).perm_closed_evaluationOrder
  rw [changes, evaluateAll_fst (hperm.nodup_iff.2 c.pass.nodup_ids), List.filter_eq_nil_iff]
  intro id _
  show ¬ (c.pass.pass.component? id).any (·.changed) = true
  rw [h.component?_pass_pass hacyclic]
  cases c.component? id with
  | none => simp
  | some x => simp [x.changed_evaluate_evaluate]

/-- Neither does any later one. -/
theorem WellWired.changes_passes (h : c.WellWired) (hacyclic : c.readerGraph.Acyclic) (n : Nat) :
    (c.passes (n + 1)).changes = [] := by
  have hframe := c.frame_passes n
  rw [passes_succ]
  exact (h.of_frame hframe).changes_pass (by rwa [readerGraph_of_frame hframe])

end Circuit

/-! ## Ticks without clocks -/

namespace Simulator

variable {s : Simulator} {c : Circuit}

/-- Where no clock runs, a tick reports the changes of a pass. -/
theorem Attends.changed_tick (h : s.Attends c) (hc : c.Unclocked) (now : Float) :
    (s.tick c now).1.changed = c.changes := by
  have htimed : ({ s with lastTime := now } : Simulator).BelongsTo c := h.belongs
  rw [tick_eq, hc.toggleClocks]
  exact htimed.evaluate_eq.1

/-- Where no clock runs, ticks at whatever times report the changes of passes. -/
theorem Attends.changed_ticks (h : s.Attends c) (hc : c.Unclocked) (times : List Float) :
    (s.ticks times c).1.map (·.changed) =
      (List.range times.length).map fun k => (c.passes k).changes := by
  induction times generalizing s c with
  | nil => rfl
  | cons now times ih =>
      have htick := h.tick hc now
      have hcircuit : (s.tick c now).2.2 = c.pass := htick.circuit
      have hunclocked : (s.tick c now).2.2.Unclocked := by
        rw [hcircuit]
        exact hc.pass
      have hrest := ih htick.attends hunclocked
      rw [hcircuit] at hrest
      show (s.tick c now).1.changed ::
        ((s.tick c now).2.1.ticks times (s.tick c now).2.2).1.map (·.changed) = _
      rw [h.changed_tick hc, hcircuit, hrest, List.length_cons, List.range_succ_eq_map,
        List.map_cons, List.map_map]
      rfl

end Simulator

variable {c d : Circuit}

/-- Where no clock runs and there is no cycle, ticks with a new simulator report no change after
the first one and no oscillation. -/
theorem Circuit.WellWired.settled_simulate (h : c.WellWired) (hacyclic : c.readerGraph.Acyclic)
    (hunclocked : c.Unclocked) (n : Nat) (interval : Float) :
    let reports := (c.simulate n interval).1
    reports.length = n ∧ (∀ report ∈ reports.tail, report.changed = []) ∧
      ∀ report ∈ reports, report.oscillation = none := by
  intro reports
  have hlength : (tickTimes n interval).length = n := by simp [tickTimes]
  have hstart := Simulator.attends_ofSettings .standard c
  have hchanged := hstart.changed_ticks hunclocked (tickTimes n interval)
  have hwatch := hstart.ticks hunclocked (tickTimes n interval)
  rw [hlength] at hchanged hwatch
  have hreports : reports.map (·.changed) =
      (List.range n).map fun k => (c.passes k).changes := hchanged
  refine ⟨?_, fun report hreport => ?_, (hwatch.silent_iff rfl).2 ?_⟩
  · simpa using congrArg List.length hreports
  · have htail : report.changed ∈ (reports.map (·.changed)).tail := by
      rw [← List.map_tail]
      exact List.mem_map_of_mem hreport
    rw [hreports] at htail
    cases n with
    | zero => cases htail
    | succ n =>
        rw [List.range_succ_eq_map, List.map_cons, List.tail_cons, List.map_map] at htail
        obtain ⟨k, -, hk⟩ := List.mem_map.1 htail
        rw [← hk]
        exact h.changes_passes hacyclic k
  · rw [h.snapshots_eq_replicate hacyclic]
    exact Guard.silent_replicate 10 5 n c.pass.snapshot

/-- A circuit without feedback settles in one pass. Take a reachable circuit without a cycle in
any state, and a new simulator. The pass after the first one reports no change and leaves the
circuit as it was, apart from the histories of probes and the flags; in particular all outputs,
all values and all states of sources. So if no clock runs, any number of ticks at any interval
reports no change after the first tick and no oscillation at all. -/
theorem settles_in_one_pass (h : c.Reachable) (hcycle : c.hasCycle = false)
    (hframe : d.frame = c.frame) (settings : Settings) :
    let first := (Simulator.ofSettings settings).evaluate d
    let second := first.2.1.evaluate first.2.2
    second.1 = [] ∧ second.2.2.lasting = first.2.2.lasting ∧
    (∀ id, (second.2.2.component? id).map (fun x => (x.output, x.value, x.kind.source?)) =
      (first.2.2.component? id).map fun x => (x.output, x.value, x.kind.source?)) ∧
    (d.Unclocked → ∀ (n : Nat) (interval : Float),
      let reports := (d.simulate n interval).1
      reports.length = n ∧ (∀ report ∈ reports.tail, report.changed = []) ∧
        ∀ report ∈ reports, report.oscillation = none) := by
  intro first second
  have hwired : d.WellWired := h.wellWired.of_frame hframe
  have hacyclic : d.readerGraph.Acyclic := by
    rw [Circuit.readerGraph_of_frame hframe]
    exact h.wellWired.hasCycle_eq_false_iff.1 hcycle
  have hnew := Simulator.attends_ofSettings settings d
  have hfirst : first.2.2 = d.pass := hnew.belongs.evaluate_eq.2
  have hattends : first.2.1.Attends d :=
    hnew.belongs.attends rfl (Simulator.revision_refresh (Simulator.ofSettings settings) d)
  obtain ⟨hchanges, hsecond⟩ :=
    (hattends.belongs.of_frame (hfirst ▸ d.frame_pass : first.2.2.frame = d.frame)).evaluate_eq
  have hlasting : second.2.2.lasting = first.2.2.lasting := by
    rw [show second.2.2 = first.2.2.pass from hsecond, hfirst]
    exact hwired.lasting_pass_pass hacyclic
  refine ⟨?_, hlasting, fun id => ?_, fun hunclocked n interval => ?_⟩
  · rw [show second.1 = first.2.2.changes from hchanges, hfirst]
    exact hwired.changes_pass hacyclic
  · rw [← second.2.2.shown_lasting, hlasting, first.2.2.shown_lasting]
  · exact hwired.settled_simulate hacyclic hunclocked n interval

/-- A row of inverters settles from the state in which every output is on: the first pass turns
the switch and the last inverter off, and twenty ticks report no change after the first one. -/
theorem settles_in_one_pass_inverterRow : inverterRow.Reachable ∧ inverterRow.hasCycle = false ∧
    let d := inverterRow.withOutputs fun _ => true
    let first := Simulator.new.evaluate d
    d.frame = inverterRow.frame ∧ first.1 = ["s", "c"] ∧ (first.2.1.evaluate first.2.2).1 = [] ∧
      ∀ report ∈ (d.simulate 20 50).1.tail, report.changed = [] := by
  have hreach : inverterRow.Reachable := reachable_applyAll _
  have hcycle : inverterRow.hasCycle = false := by decide +kernel
  have hframe : (inverterRow.withOutputs fun _ => true).frame = inverterRow.frame :=
    Circuit.frame_withOutputs _ _
  obtain ⟨hsecond, -, -, hticks⟩ := settles_in_one_pass hreach hcycle hframe .standard
  exact ⟨hreach, hcycle, hframe, by decide +kernel, hsecond,
    (hticks (by decide +kernel) 20 50).2.1⟩

end LogicCircuit
