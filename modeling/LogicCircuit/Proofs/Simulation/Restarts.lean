import LogicCircuit.Proofs.Simulation.Windows
import Mathlib.Data.List.DropRight

/-!
# The guard over whole runs

The window of a guard is the end of what it saw since it last started afresh, and that is not only
what its user asked for: a report makes it start afresh too, and the guard of a simulator does so
when the circuit has another revision. `Guard.recent` and `Session.recent` follow a run and keep
what was seen since then. `Guard.Verdict` says what is reported on a window and what is left of
it, and `guard_over_runs` that every record and every tick of every run is judged so.
-/

namespace LogicCircuit

/-- The first element that satisfies a condition comes before all that do. -/
theorem idxOf_le_of_find? {p : String → Bool} {window : List String} {s r : String}
    (h : window.find? p = some s) (hr : r ∈ window) (hp : p r = true) :
    window.idxOf s ≤ window.idxOf r := by
  obtain ⟨hs, before, after, rfl, hbefore⟩ := List.find?_eq_some_iff_append.1 h
  have hnot : ∀ a, p a = true → a ∉ before := fun a ha hmem => by
    have hfalse := hbefore a hmem
    simp [ha] at hfalse
  rw [List.idxOf_append_of_notMem (hnot s hs), List.idxOf_append_of_notMem (hnot r hp),
    List.idxOf_cons_self]
  exact Nat.le_add_right _ _

namespace Guard

variable {g : Guard} {past : List String} {size threshold : Nat}

/-- What a guard reports on a window, and the window that it goes on with. -/
structure Verdict (size threshold : Nat) (window : List String) (report : Option Oscillation)
    (left : List String) : Prop where
  /-- Something is reported exactly if the window is full, holds two different states and holds
  one often enough. -/
  reports : report.isSome ↔ window.length = size ∧ (∃ p ∈ window, ∃ q ∈ window, p ≠ q) ∧
    ∃ p ∈ window, threshold ≤ window.count p
  /-- Of the states that are there often enough the one is reported that comes first. -/
  first : ∀ o, report = some o → o.pattern ∈ window ∧ threshold ≤ window.count o.pattern ∧
    ∀ p ∈ window, threshold ≤ window.count p → window.idxOf o.pattern ≤ window.idxOf p
  /-- The report says how often the state is there. -/
  count : ∀ o, report = some o → o.count = window.count o.pattern
  /-- A report empties the window. -/
  left : left = if report.isSome then [] else window

/-- A report is on the first state that is often enough in the window. -/
theorem idxOf_le_of_judge? {window : List String} {o : Oscillation}
    (h : g.judge? window = some o) {p : String} (hp : p ∈ window)
    (hoften : g.threshold ≤ window.count p) : window.idxOf o.pattern ≤ window.idxOf p := by
  unfold judge? at h
  split at h
  · obtain ⟨s, hs, rfl⟩ := Option.map_eq_some_iff.1 h
    exact idxOf_le_of_find? hs hp (decide_eq_true hoften)
  · cases h

theorem record_fst (g : Guard) (state : String) :
    (g.record state).1 = g.judge? (g.seen state) := by
  rw [record_eq]
  cases g.judge? (g.seen state) <;> rfl

/-- A record gives a verdict on the window that it completes. -/
theorem verdict_record (g : Guard) (state : String) :
    Verdict g.size g.threshold (g.seen state) (g.record state).1 (g.record state).2.window where
  reports := by
    constructor
    · intro hsome
      obtain ⟨o, ho⟩ := Option.isSome_iff_exists.1 hsome
      obtain ⟨hfull, hcount, hoften, hmem, q, hq, hne⟩ := reports_of_record ho
      exact ⟨hfull, ⟨q, hq, o.pattern, hmem, hne⟩, o.pattern, hmem, hcount ▸ hoften⟩
    · rintro ⟨hfull, ⟨p, hp, q, hq, hpq⟩, r, hr, hoften⟩
      -- one of two different states is another one than the state that is often enough
      by_cases hpr : p = r
      · exact isSome_record hfull hr hoften hq fun e => hpq (hpr.trans e.symm)
      · exact isSome_record hfull hr hoften hp hpr
  first o ho := by
    have hreport := reports_of_record ho
    refine ⟨hreport.mem, hreport.count ▸ hreport.often, fun p hp hoften => ?_⟩
    exact idxOf_le_of_judge? ((g.record_fst state).symm.trans ho) hp hoften
  count o ho := (reports_of_record ho).count
  left := by
    rw [record_eq]
    cases g.judge? (g.seen state) <;> rfl

/-! ## Runs of a guard -/

/-- What was seen since the guard last started afresh, after one more use. -/
def since (g : Guard) (past : List String) : Use → List String
  | .record state => if (g.record state).1.isSome then [] else past ++ [state]
  | .clear => []

/-- What was seen since the guard last started afresh, after further uses. -/
def recent (past : List String) : List Use → Guard → List String
  | [], _ => past
  | u :: uses, g => recent (g.since past u) uses (g.use u)

theorem latest_nil (size : Nat) : latest size [] = [] := List.drop_nil

/-- The verdict of a guard that holds the end of its past is on the end of the past and the
present state. -/
theorem verdict_of_past (hpast : g.window = latest g.size past) (state : String) :
    Verdict g.size g.threshold (latest g.size (past ++ [state])) (g.record state).1
      (g.record state).2.window :=
  seen_of_past hpast state ▸ g.verdict_record state

/-- What a verdict leaves is the end of what was seen since the guard last started afresh. -/
theorem Verdict.left_eq_latest {report : Option Oscillation} {states left : List String}
    (h : Verdict size threshold (latest size states) report left) :
    left = latest size (if report.isSome then [] else states) := by
  rw [h.left]
  split
  · rw [latest_nil]
  · rfl

/-- After a use a guard still holds the end of what it saw since it last started afresh. -/
theorem window_use (hpast : g.window = latest g.size past) (u : Use) :
    (g.use u).window = latest g.size (g.since past u) := by
  cases u with
  | record state => exact (verdict_of_past hpast state).left_eq_latest
  | clear => exact (latest_nil g.size).symm

theorem window_useAll (hpast : g.window = latest g.size past) (uses : List Use) :
    (g.useAll uses).window = latest g.size (recent past uses g) := by
  induction uses generalizing g past with
  | nil => exact hpast
  | cons u uses ih =>
      have hsize : (g.use u).size = g.size := g.size_useAll [u]
      have hnext := ih (g := g.use u) (hsize ▸ window_use hpast u)
      rw [hsize] at hnext
      exact hnext

end Guard

/-! ## Runs of a session -/

namespace Simulator

variable {s : Simulator} {c : Circuit} {now : Float}

/-- Where the simulator knows the revision of the circuit, it does not start afresh. -/
theorem refresh_of_known (h : s.revision = some c.revision) : s.refresh c = s := if_pos h

theorem size_refresh (s : Simulator) (c : Circuit) :
    (s.refresh c).guard.size = s.guard.size := by
  rw [guard_refresh]
  split <;> rfl

theorem threshold_refresh (s : Simulator) (c : Circuit) :
    (s.refresh c).guard.threshold = s.guard.threshold := by
  rw [guard_refresh]
  split <;> rfl

/-- The guard stays in the pass of a tick what it is after a look at the circuit, and then it
watches the snapshot. -/
theorem guard_tick (s : Simulator) (c : Circuit) (now : Float) :
    ((s.tick c now).1.oscillation, (s.tick c now).2.1.guard) =
      (s.refresh c).guard.watch s.settings.detect (s.tick c now).2.2.snapshot := by
  have hrevision : (c.toggleClocks now).revision = c.revision :=
    Circuit.revision_of_frame (c.frame_toggleClocks now)
  have hguard : (({ s with lastTime := now } : Simulator).refresh (c.toggleClocks now)).guard =
      (s.refresh c).guard := by
    rw [guard_refresh, guard_refresh, hrevision]
  have hdetect :
      (({ s with lastTime := now } : Simulator).refresh (c.toggleClocks now)).settings.detect =
        s.settings.detect := congrArg Settings.detect (settings_refresh _ _)
  calc ((s.tick c now).1.oscillation, (s.tick c now).2.1.guard)
    _ = Guard.watch _ (s.tick c now).2.2.snapshot
          (({ s with lastTime := now } : Simulator).refresh (c.toggleClocks now)).guard := by
        rw [tick_eq]
        rfl
    _ = _ := by rw [hguard, hdetect]

end Simulator

namespace Session

variable {t : Session} {size threshold : Nat} {past : List String}

/-- What was seen since the guard last started afresh, after a tick. -/
def sinceTick (past : List String) (tick : TickReport × Simulator × Circuit) : List String :=
  if tick.1.oscillation.isSome then [] else past ++ [tick.2.2.snapshot]

/-- The snapshots of the ticks since the guard last started afresh, after one more event. -/
def since (t : Session) (past : List String) : Event → List String
  | .edit e => if (e.apply t.circuit).revision = t.circuit.revision then past else []
  | .tick now => sinceTick past (t.simulator.tick t.circuit now)
  | .step => sinceTick past (t.simulator.step t.circuit)
  | .reset => []
  | .order | .evaluate | .trace _ => past

/-- The snapshots of the ticks since the guard last started afresh, after further events. -/
def recent (past : List String) : List Event → Session → List String
  | [], _ => past
  | event :: events, t => recent (t.since past event) events (t.perform event)

/-- The guard of the simulator holds the end of some past, at the latest when the simulator looks
at the circuit again. -/
structure Remembers (size threshold : Nat) (past : List String) (t : Session) : Prop where
  coherent : t.Coherent
  detect : t.simulator.settings.detect = true
  window : (t.simulator.refresh t.circuit).guard.window = Guard.latest size past
  size : t.simulator.guard.size = size
  threshold : t.simulator.guard.threshold = threshold

/-- A new simulator has seen nothing. -/
theorem Remembers.new {c : Circuit} (hc : c.WellWired) (size threshold : Nat) (interval : Float) :
    Remembers size threshold [] ⟨.ofSettings ⟨size, threshold, true, interval⟩, c⟩ where
  coherent := .new hc _
  detect := rfl
  window := (Guard.latest_nil size).symm
  size := rfl
  threshold := rfl

/-- In a tick the guard records the snapshot that it leaves. -/
theorem Remembers.record_tick (h : t.Remembers size threshold past) (now : Float) :
    let tick := t.simulator.tick t.circuit now
    let record := (t.simulator.refresh t.circuit).guard.record tick.2.2.snapshot
    tick.1.oscillation = record.1 ∧ tick.2.1.guard = record.2 := by
  intro tick record
  have hrecord : (tick.1.oscillation, tick.2.1.guard) = record :=
    (t.simulator.guard_tick t.circuit now).trans (if_pos h.detect)
  exact ⟨congrArg Prod.fst hrecord, congrArg Prod.snd hrecord⟩

/-- A tick gives a verdict on the end of the past and the snapshot that it leaves. -/
theorem Remembers.verdict_tick (h : t.Remembers size threshold past) (now : Float) :
    let tick := t.simulator.tick t.circuit now
    Guard.Verdict size threshold (Guard.latest size (past ++ [tick.2.2.snapshot]))
      tick.1.oscillation tick.2.1.guard.window := by
  intro tick
  obtain ⟨hreport, hguard⟩ := h.record_tick now
  have hsize : (t.simulator.refresh t.circuit).guard.size = size :=
    (t.simulator.size_refresh t.circuit).trans h.size
  have hthreshold : (t.simulator.refresh t.circuit).guard.threshold = threshold :=
    (t.simulator.threshold_refresh t.circuit).trans h.threshold
  have hverdict := Guard.verdict_of_past (g := (t.simulator.refresh t.circuit).guard)
    (hsize ▸ h.window) tick.2.2.snapshot
  rw [hsize, hthreshold, ← hreport, ← hguard] at hverdict
  exact hverdict

/-- After a tick the guard holds the end of what was seen since it last started afresh. -/
theorem Remembers.tick (h : t.Remembers size threshold past) (now : Float) :
    let tick := t.simulator.tick t.circuit now
    Remembers size threshold (sinceTick past tick) ⟨tick.2.1, tick.2.2⟩ := by
  intro tick
  have hguard : tick.2.1.guard = _ := (h.record_tick now).2
  have hknown : tick.2.1.revision = some tick.2.2.revision := by
    rw [Circuit.revision_of_frame (Circuit.frame_tick t.simulator t.circuit now),
      ← Circuit.revision_of_frame (t.circuit.frame_toggleClocks now)]
    exact (t.simulator.tick_refresh t.circuit now).2
  refine ⟨h.coherent.perform (.tick now), ?_, ?_, ?_, ?_⟩
  · exact (congrArg Settings.detect (t.simulator.settings_tick t.circuit now)).trans h.detect
  · rw [Simulator.refresh_of_known hknown]
    exact (h.verdict_tick now).left_eq_latest
  · rw [hguard, Guard.size_record, Simulator.size_refresh, h.size]
  · rw [hguard, Guard.threshold_record, Simulator.threshold_refresh, h.threshold]

/-- The guard keeps what it holds while the circuit stays at its revision, and starts afresh once
the circuit has another one. -/
theorem Remembers.edit (h : t.Remembers size threshold past) (e : Edit) :
    (t.perform (.edit e)).Remembers size threshold (t.since past (.edit e)) := by
  obtain ⟨s, c⟩ := t
  refine ⟨h.coherent.perform (.edit e), h.detect, ?_, h.size, h.threshold⟩
  show (s.refresh (e.apply c)).guard.window =
    Guard.latest size (if (e.apply c).revision = c.revision then past else [])
  split
  · rename_i hsame
    rw [Simulator.guard_refresh, hsame, ← Simulator.guard_refresh]
    exact h.window
  · rename_i hother
    have hlt : c.revision < (e.apply c).revision :=
      (e.change h.coherent.wired).frame_eq_or_revision_lt.resolve_left fun hframe =>
        hother (Circuit.revision_of_frame hframe)
    -- the revision is new, so it is not the one that the simulator knows
    have hunknown : s.revision ≠ some (e.apply c).revision := fun hknown =>
      absurd (h.coherent.reached _ hknown) (Nat.not_le_of_lt hlt)
    rw [Simulator.guard_refresh, if_neg hunknown, Guard.latest_nil]
    rfl

/-- After every event the guard holds the end of what was seen since it last started afresh. -/
theorem Remembers.perform (h : t.Remembers size threshold past) (event : Event) :
    (t.perform event).Remembers size threshold (t.since past event) := by
  have hknown := t.simulator.revision_refresh t.circuit
  have hdetect : (t.simulator.refresh t.circuit).settings.detect = true :=
    (congrArg Settings.detect (t.simulator.settings_refresh t.circuit)).trans h.detect
  have hsize := (t.simulator.size_refresh t.circuit).trans h.size
  have hthreshold := (t.simulator.threshold_refresh t.circuit).trans h.threshold
  cases event with
  | edit e => exact h.edit e
  | tick now => exact h.tick now
  | step => exact h.tick _
  | order =>
      refine ⟨h.coherent.perform .order, hdetect, ?_, hsize, hthreshold⟩
      show ((t.simulator.refresh t.circuit).refresh t.circuit).guard.window = _
      rw [Simulator.refresh_of_known hknown]
      exact h.window
  | evaluate =>
      refine ⟨h.coherent.perform .evaluate, hdetect, ?_, hsize, hthreshold⟩
      have hrevision := Circuit.revision_of_frame (Circuit.frame_evaluate t.simulator t.circuit)
      show ((t.simulator.evaluate t.circuit).2.1.refresh
        (t.simulator.evaluate t.circuit).2.2).guard.window = _
      rw [Simulator.refresh_of_known (by rw [hrevision]; exact hknown)]
      exact h.window
  | reset =>
      refine ⟨h.coherent.perform .reset, h.detect, ?_, h.size, h.threshold⟩
      exact (Guard.latest_nil size).symm
  | trace id => exact h

theorem Remembers.performAll (h : t.Remembers size threshold past) (events : List Event) :
    (Session.performAll events t).Remembers size threshold (recent past events t) := by
  induction events generalizing t past with
  | nil => exact h
  | cons event events ih => exact ih (h.perform event)

end Session

/-- What the guard does over whole runs. For a guard of any size and threshold, after any uses of
it, a record is judged on the latest states, as many as make up a full window at most and the new
one among them, of those recorded since the guard was made, was cleared or made a report. For a
simulator with its guard on, after any events of a session with a reachable circuit, a tick is
judged alike on the snapshots of the ticks since the simulator was made or reset, the circuit got
another revision or a tick made a report. -/
theorem guard_over_runs (size threshold : Nat) :
    (∀ (uses : List Guard.Use) (state : String),
      let start := Guard.ofSize size threshold
      let record := (start.useAll uses).record state
      let window := (Guard.recent [] uses start ++ [state]).rtake size
      Guard.Verdict size threshold window record.1 record.2.window) ∧
    ∀ (c : Circuit) (interval : Float) (events : List Event) (now : Float), c.Reachable →
      let start : Session := ⟨.ofSettings ⟨size, threshold, true, interval⟩, c⟩
      let t := start.performAll events
      let tick := t.simulator.tick t.circuit now
      let window := (Session.recent [] events start ++ [tick.2.2.snapshot]).rtake size
      Guard.Verdict size threshold window tick.1.oscillation tick.2.1.guard.window := by
  constructor
  · intro uses state start record window
    have hsize : (start.useAll uses).size = size := start.size_useAll uses
    have hthreshold : (start.useAll uses).threshold = threshold := start.threshold_useAll uses
    have hpast : (start.useAll uses).window = Guard.latest size (Guard.recent [] uses start) :=
      Guard.window_useAll (g := start) (Guard.latest_nil size).symm uses
    have hverdict := Guard.verdict_of_past (g := start.useAll uses) (hsize.symm ▸ hpast) state
    rw [hsize, hthreshold] at hverdict
    exact hverdict
  · intro c interval events now hc start t tick window
    have hstart := Session.Remembers.new hc.wellWired size threshold interval
    exact (hstart.performAll events).verdict_tick now

/-- A switch and an inverter without wires. -/
def unwiredInverter : Circuit :=
  Edit.applyAll
    [.add ((Component.source .switch .origin).withId "in") (by decide),
      .add ((Component.gate .not .origin).withId "inv") (by decide)]
    .empty

/-- A guard over two states sees an inverter before and after it is wired, which is nothing to
report, and then before and after its switch is set, which is. -/
theorem guard_over_runs_unwiredInverter : unwiredInverter.Reachable ∧
    let start : Session := ⟨.ofSettings ⟨2, 1, true, 50⟩, unwiredInverter⟩
    let events : List Event :=
      [.tick 50, .edit (.connect "in" "inv" 0), .tick 100, .edit (.setSwitch "in" true)]
    let t := start.performAll events
    let tick := t.simulator.tick t.circuit 150
    (∃ state, Session.recent [] events start = [state]) ∧ tick.1.oscillation.isSome ∧
      tick.2.1.guard.window = [] := by
  have hreach : unwiredInverter.Reachable := reachable_applyAll _
  have hverdict := (guard_over_runs 2 1).2 unwiredInverter 50
    [.tick 50, .edit (.connect "in" "inv" 0), .tick 100, .edit (.setSwitch "in" true)] 150 hreach
  have hreport := hverdict.reports.2 (by decide +kernel)
  exact ⟨hreach, List.length_eq_one_iff.1 (by decide +kernel), hreport,
    hverdict.left.trans (if_pos hreport)⟩

end LogicCircuit
