import LogicCircuit.Proofs.Simulation.Snapshots
import LogicCircuit.Proofs.Simulation.Windows

/-!
# Oscillation reports

A guard reports a state that is in a full window often enough, next to another one. It does not
ask whether the state was left and came back. A circuit without cycles and without running clocks
is settled after its first pass (`Circuit.WellWired.snapshots_eq_replicate`), and flipping one of
its switches makes it settle in another state. So the change is reported if one of the two states
is in a full window often enough (`Simulator.silent_flip`). `oscillation_reports` says this next
to what a guard reports in general, and `reported_without_return` that a reported state need not
come back.
-/

namespace LogicCircuit

namespace Circuit

variable {c d : Circuit} {id : ComponentId} {level : Bool}

/-! ## Circuits that settle -/

/-- After a pass over a circuit without cycles every component puts out its value. -/
theorem WellWired.outputOf_pass (h : c.WellWired) (hacyclic : c.readerGraph.Acyclic)
    (hid : id ∈ c.ids) : c.pass.outputOf (some id) = c.denote id := by
  obtain ⟨x, hx⟩ := mem_ids_iff.1 hid
  rw [← pass_eq_evaluate]
  exact h.outputOf_evaluate (Simulator.belongsTo_new c) hx (h.acyclicCone hacyclic id)

/-- Circuits of one frame without cycles look the same after a pass exactly if they agree on all
values. -/
theorem WellWired.snapshot_pass_eq_iff (h : c.WellWired) (hacyclic : c.readerGraph.Acyclic)
    (hframe : d.frame = c.frame) :
    d.pass.snapshot = c.pass.snapshot ↔ ∀ id ∈ c.ids, d.denote id = c.denote id := by
  have hids : d.pass.ids = c.pass.ids :=
    ids_of_frame (d.frame_pass.trans (hframe.trans c.frame_pass.symm))
  have hacyclic' : d.readerGraph.Acyclic := by rwa [readerGraph_of_frame hframe]
  have hc : ∀ id ∈ c.ids, c.pass.outputOf (some id) = c.denote id := fun id hid =>
    h.outputOf_pass hacyclic hid
  have hd : ∀ id ∈ c.ids, d.pass.outputOf (some id) = d.denote id := fun id hid =>
    (h.of_frame hframe).outputOf_pass hacyclic' (ids_of_frame hframe ▸ hid)
  rw [snapshot_eq_iff hids]
  constructor
  · intro houtputs id hid
    rw [← hc id hid, ← hd id hid, houtputs]
  · intro hvalues id
    by_cases hid : id ∈ c.ids
    · rw [hc id hid, hd id hid, hvalues id hid]
    · have hid' : id ∉ c.pass.ids := by rwa [ids_of_frame c.frame_pass]
      rw [outputOf_of_not_mem_ids hid', outputOf_of_not_mem_ids (hids ▸ hid')]

/-- A circuit without cycles is settled after its first pass. -/
theorem WellWired.snapshot_passes (h : c.WellWired) (hacyclic : c.readerGraph.Acyclic) (n : Nat) :
    (c.passes (n + 1)).snapshot = c.pass.snapshot := by
  have hlevels : ∀ a, (c.passes n).level? a = c.level? a := by
    intro a
    induction n with
    | zero => rfl
    | succ n ih => rw [passes_succ, ← pass_eq_evaluate, level?_evaluate, ih]
  have hframe := c.frame_passes n
  rw [passes_succ]
  exact (h.snapshot_pass_eq_iff hacyclic hframe).2 fun id _ =>
    denote_eq_of_levels hframe hlevels id

theorem WellWired.snapshots_eq_replicate (h : c.WellWired) (hacyclic : c.readerGraph.Acyclic)
    (n : Nat) : c.snapshots n = List.replicate n c.pass.snapshot := by
  rw [snapshots_eq_map, List.map_congr_left fun k _ => h.snapshot_passes hacyclic k]
  simp

/-! ## Flipping a switch -/

/-- Passes keep what the sources are. -/
theorem source?_passes (n : Nat) (c : Circuit) (id : ComponentId) :
    ((c.passes n).component? id).bind (·.kind.source?) =
      (c.component? id).bind (·.kind.source?) := by
  have hsource : ∀ (x : Component) bits, (x.evaluate bits).kind.source? = x.kind.source? := by
    intro x bits
    obtain ⟨_, kind, _⟩ := x
    cases kind <;> rfl
  induction n with
  | zero => rfl
  | succ n ih => rw [passes_succ, ← pass_eq_evaluate, bind_component?_evaluate hsource, ih]

/-- A switch can be flipped: its level is the other one then, the frame is as it was, and no clock
has been started. -/
theorem toggle_switch (hid : (c.component? id).bind (·.kind.source?) = some ⟨.switch, level⟩) :
    ∃ d, c.toggle? id = some d ∧ d.frame = c.frame ∧ d.level? id = some (!level) ∧
      (c.Unclocked → d.Unclocked) := by
  obtain ⟨x, hx, hsource⟩ := Option.bind_eq_some_iff.1 hid
  obtain ⟨name, kind, position, label, slots, output, changed⟩ := x
  cases kind with
  | gate g => cases hsource
  | sink s => cases hsource
  | source s =>
      obtain rfl : s = ⟨.switch, level⟩ := Option.some.inj hsource
      set change : Component → Component := fun x => { x with kind := x.kind.mapSource flip }
        with hchange
      have htoggle : c.toggle? id = some (c.modify id change fun _ => rfl) := by
        rw [toggle?, modifySource?, hid]
        rfl
      have hlook := component?_modify c id change (fun _ => rfl)
      have hself : (c.modify id change fun _ => rfl).component? id =
          some ⟨name, .source ⟨.switch, !level⟩, position, label, slots, output, changed⟩ := by
        rw [hlook, if_pos rfl, hx]
        rfl
      refine ⟨_, htoggle, frame_modifySource (by simp) htoggle, ?_, fun hunclocked a t ht => ?_⟩
      · rw [level?, hself]
        rfl
      · by_cases ha : a = id
        · rw [ha, hself] at ht
          cases ht
        · rw [hlook, if_neg ha] at ht
          exact hunclocked a t ht

/-- A source has the level that it stands for. -/
theorem level?_of_source {s : Source} (h : (c.component? id).bind (·.kind.source?) = some s) :
    c.level? id = some s.level := by
  obtain ⟨x, hx, hs⟩ := Option.bind_eq_some_iff.1 h
  rw [level?, hx, Option.bind_some, Kind.level?, hs]
  rfl

/-- A circuit without cycles looks different after a pass if the level of a source has changed. -/
theorem WellWired.snapshot_pass_ne (h : c.WellWired) (hacyclic : c.readerGraph.Acyclic)
    (hframe : d.frame = c.frame) (hlevel : c.level? id = some level)
    (hflipped : d.level? id = some (!level)) : d.pass.snapshot ≠ c.pass.snapshot := by
  intro hsame
  have hacyclic' : d.readerGraph.Acyclic := by rwa [readerGraph_of_frame hframe]
  obtain ⟨x, hx, _⟩ := Option.bind_eq_some_iff.1 hlevel
  have hvalue := (h.snapshot_pass_eq_iff hacyclic hframe).1 hsame id (mem_ids_of_component? hx)
  rw [denote_of_level? (h.acyclicCone hacyclic id) hlevel,
    denote_of_level? ((h.of_frame hframe).acyclicCone hacyclic' id) hflipped] at hvalue
  cases level <;> cases hvalue

end Circuit

/-- A simulator reports nothing exactly if its guard keeps silent on the snapshots. -/
theorem Simulator.WatchesPasses.silent_iff {s : Simulator} {c : Circuit} {n : Nat}
    {run : List TickReport × Simulator × Circuit} (h : s.WatchesPasses c n run)
    (hdetect : s.settings.detect = true) :
    (∀ report ∈ run.1, report.oscillation = none) ↔ s.guard.Silent (c.snapshots n) := by
  have hreports := h.oscillations
  rw [hdetect] at hreports
  rw [Guard.Silent, ← hreports, List.forall_mem_map]

/-- A circuit without cycles and running clocks runs for some ticks, then a switch is flipped, and
it runs on. Nothing is reported before the flip; and nothing is reported after it exactly if no
full window holds states of both sides, those of one side often enough. -/
theorem Simulator.silent_flip {c : Circuit} (hc : c.WellWired) (hacyclic : c.readerGraph.Acyclic)
    (hunclocked : c.Unclocked) {id : ComponentId} {level : Bool}
    (hid : (c.component? id).bind (·.kind.source?) = some ⟨.switch, level⟩) {settings : Settings}
    (hdetect : settings.detect = true) {times : List Float} (htimes : times ≠ [])
    (more : List Float) :
    let before := (Simulator.ofSettings settings).ticks times c
    ∃ d, before.2.2.toggle? id = some d ∧ (∀ report ∈ before.1, report.oscillation = none) ∧
      ((∀ report ∈ (before.2.1.ticks more d).1, report.oscillation = none) ↔
        ∀ k, 0 < k → k ≤ more.length → k < settings.window → settings.window ≤ times.length + k →
          k < settings.threshold ∧ settings.window - k < settings.threshold) := by
  intro before
  have hon : (Simulator.ofSettings settings).settings.detect = true := hdetect
  have hbefore : (Simulator.ofSettings settings).WatchesPasses c times.length before :=
    (attends_ofSettings settings c).ticks hunclocked times
  have hcircuit : before.2.2 = c.passes times.length := hbefore.circuit
  have hframe : before.2.2.frame = c.frame := hcircuit ▸ c.frame_passes _
  have hwired := hc.of_frame hframe
  have hacyclic' : before.2.2.readerGraph.Acyclic := by rwa [Circuit.readerGraph_of_frame hframe]
  have hsource : (before.2.2.component? id).bind (·.kind.source?) = some ⟨.switch, level⟩ := by
    rw [hcircuit, Circuit.source?_passes, hid]
  obtain ⟨d, htoggle, hframe', hflipped, hstopped⟩ := Circuit.toggle_switch hsource
  have hafter := (hbefore.attends.of_frame hframe').ticks
    (hstopped (by rw [hcircuit]; exact hunclocked.passes _)) more
  have hacyclic'' : d.readerGraph.Acyclic := by rwa [Circuit.readerGraph_of_frame hframe']
  -- the flip puts an end to one stretch of states and starts another one
  have hne : c.pass.snapshot ≠ d.pass.snapshot := by
    have hlevel := Circuit.level?_of_source hid
    have hframe'' : d.frame = c.frame := hframe'.trans hframe
    exact (hc.snapshot_pass_ne hacyclic hframe'' hlevel hflipped).symm
  have hfirst := hbefore.silent_iff hon
  have hrest := hafter.silent_iff (hbefore.settings ▸ hon)
  rw [hc.snapshots_eq_replicate hacyclic] at hfirst
  rw [hbefore.guard, hc.snapshots_eq_replicate hacyclic, hon,
    (hwired.of_frame hframe').snapshots_eq_replicate hacyclic''] at hrest
  obtain ⟨hsilent, hchange⟩ := Guard.silent_change hne (List.length_pos_iff.2 htimes)
    settings.window settings.threshold more.length
  exact ⟨d, htoggle, hfirst.2 hsilent, hrest.trans hchange⟩

/-- What a guard reports, and when. After any uses of a guard of any size and threshold, a record
reports something exactly if the window is full and holds a state often enough and another one as
well. The reported state is one that is there often enough; it came back, with another state in
between, exactly if its places in the window are not one stretch.

A single change can be reported. Take a reachable circuit without cycles and running clocks and a
new simulator, and flip a switch after some ticks. Nothing is reported before. What follows is
left unreported exactly if both states stay below the threshold in each full window that holds
both: the window after the `k`-th of the later ticks holds the new state `k` times and the old one
in all other places. -/
theorem oscillation_reports (size threshold : Nat) :
    (∀ (uses : List Guard.Use) (state : String),
      let g := (Guard.ofSize size threshold).useAll uses
      let window := g.seen state
      ((g.record state).1.isSome ↔ window.length = size ∧
        ∃ p ∈ window, threshold ≤ window.count p ∧ ∃ q ∈ window, q ≠ p) ∧
      ∀ o, (g.record state).1 = some o → o.pattern ∈ window ∧ threshold ≤ o.count ∧
        o.count = window.count o.pattern ∧
        (ComesBack o.pattern window ↔ ¬ OneStretch o.pattern window)) ∧
    ∀ (c : Circuit) (interval : Float) (id : ComponentId) (level : Bool)
      (times more : List Float),
      c.Reachable → c.hasCycle = false → c.Unclocked →
      (c.component? id).bind (·.kind.source?) = some ⟨.switch, level⟩ → times ≠ [] →
      let before := (Simulator.ofSettings ⟨size, threshold, true, interval⟩).ticks times c
      ∃ d, before.2.2.toggle? id = some d ∧ (∀ report ∈ before.1, report.oscillation = none) ∧
        ((∀ report ∈ (before.2.1.ticks more d).1, report.oscillation = none) ↔
          ∀ k, 0 < k → k ≤ more.length → k < size → size ≤ times.length + k →
            k < threshold ∧ size - k < threshold) := by
  refine ⟨fun uses state => ?_, ?_⟩
  · intro g window
    have hsize : g.size = size := (Guard.ofSize size threshold).size_useAll uses
    have hthreshold : g.threshold = threshold :=
      (Guard.ofSize size threshold).threshold_useAll uses
    have hreports : ∀ o, (g.record state).1 = some o → g.Reports window o := fun o =>
      Guard.reports_of_record
    rw [← hsize, ← hthreshold]
    refine ⟨⟨fun hsome => ?_, fun ⟨hfull, p, hp, hoften, q, hq, hqp⟩ => ?_⟩, fun o ho => ?_⟩
    · obtain ⟨o, ho⟩ := Option.isSome_iff_exists.1 hsome
      obtain ⟨hfull, hcount, hoften, hmem, hmixed⟩ := hreports o ho
      exact ⟨hfull, o.pattern, hmem, hcount ▸ hoften, hmixed⟩
    · exact Guard.isSome_record hfull hp hoften hq hqp
    · obtain ⟨-, hcount, hoften, hmem, -⟩ := hreports o ho
      exact ⟨hmem, hoften, hcount, comesBack_iff⟩
  · intro c interval id level times more h hcycle hunclocked hid htimes
    exact Simulator.silent_flip h.wellWired
      (h.wellWired.hasCycle_eq_false_iff.1 hcycle) hunclocked hid rfl htimes more

/-- Nine times one state and then another: a guard of ten states and a threshold of five reports
the first one, which did not come back. So does a simulator that runs over a row of inverters, at
the first tick after the switch is flipped, if that is the tenth. -/
theorem oscillation_reports_inverterRow :
    (let g := (Guard.ofSize 10 5).useAll (List.replicate 9 (.record "a"));
      (g.record "b").1 = some ⟨"a", 9⟩ ∧ ¬ ComesBack "a" (g.seen "b")) ∧
    inverterRow.Reachable ∧ inverterRow.hasCycle = false ∧
      let before := Simulator.new.ticks (tickTimes 9 50) inverterRow
      ∃ d, before.2.2.toggle? "s" = some d ∧
        ¬ ∀ report ∈ (before.2.1.ticks [500] d).1, report.oscillation = none := by
  have hreport : (((Guard.ofSize 10 5).useAll (List.replicate 9 (.record "a"))).record "b").1 =
      some ⟨"a", 9⟩ := by decide
  obtain ⟨-, -, -, hback⟩ :=
    ((oscillation_reports 10 5).1 (List.replicate 9 (.record "a")) "b").2 ⟨"a", 9⟩ hreport
  have hreach : inverterRow.Reachable := reachable_applyAll _
  have hcycle : inverterRow.hasCycle = false := by decide +kernel
  have hswitch : (inverterRow.component? "s").bind (·.kind.source?) = some ⟨.switch, false⟩ := by
    decide +kernel
  obtain ⟨d, htoggle, -, hafter⟩ := (oscillation_reports 10 5).2 inverterRow _ "s" false
    (tickTimes 9 50) [500] hreach hcycle (by decide +kernel) hswitch (by simp [tickTimes])
  refine ⟨⟨hreport, fun h => hback.1 h ?_⟩, hreach, hcycle, d, htoggle, fun hsilent => ?_⟩
  · exact ⟨[], 9, ["b"], by decide, by decide, by decide⟩
  · have hrare := hafter.1 hsilent 1 (by decide) (by decide) (by decide) (by simp [tickTimes])
    exact absurd hrare.2 (by decide)

/-- A reported state need not have come back: a guard of ten states and a threshold of five
reports a state that it saw nine times in a row and that was left then. -/
theorem reported_without_return :
    ¬ ∀ (size threshold : Nat) (uses : List Guard.Use) (state : String) (o : Oscillation),
      2 ≤ size → 2 ≤ threshold →
      let g := (Guard.ofSize size threshold).useAll uses
      (g.record state).1 = some o → ComesBack o.pattern (g.seen state) := by
  intro h
  have hback := h 10 5 (List.replicate 9 (.record "a")) "b" ⟨"a", 9⟩ (by decide) (by decide)
    (by decide)
  exact OneStretch.not_comesBack ⟨[], 9, ["b"], by decide, by decide, by decide⟩ hback

end LogicCircuit
