import LogicCircuit.Proofs.Simulation.Coherence
import LogicCircuit.Proofs.Simulation.Levels

/-!
# Runs of ticks

A tick is a pass between two other things: the clocks that are due toggle before it, and the guard
sees the state that it leaves (`Simulator.tick_eq`). Where no clock runs, ticks are passes at
whatever times (`Circuit.passes`), and what they report of oscillations is what the guard reports
on the snapshots after the passes: `Simulator.Attends.ticks` is the result.
-/

namespace LogicCircuit

/-- The timing of a clock. -/
def Kind.timing? (k : Kind) : Option Clock := k.source?.bind (·.kind.timing?)

namespace Guard

/-- A guard that is on records a state; one that is off does not look at it. -/
def watch (on : Bool) (state : String) (g : Guard) : Option Oscillation × Guard :=
  if on then g.record state else (none, g)

/-- The reports of a guard on some states in turn, and the guard after them. -/
def watchAll (on : Bool) : List String → Guard → List (Option Oscillation) × Guard
  | [], g => ([], g)
  | state :: states, g =>
    let rest := watchAll on states (g.watch on state).2
    ((g.watch on state).1 :: rest.1, rest.2)

theorem watchAll_append (on : Bool) (states more : List String) (g : Guard) :
    g.watchAll on (states ++ more) =
      ((g.watchAll on states).1 ++ ((g.watchAll on states).2.watchAll on more).1,
        ((g.watchAll on states).2.watchAll on more).2) := by
  induction states generalizing g with
  | nil => rfl
  | cons state states ih => simp only [List.cons_append, watchAll, ih]

end Guard

namespace Circuit

/-- No clock of the circuit runs. -/
def Unclocked (c : Circuit) : Prop :=
  ∀ id, ∀ t ∈ (c.component? id).bind (·.kind.timing?), t.enabled = false

/-- The circuit after a pass in its order of evaluation. -/
def pass (c : Circuit) : Circuit := (c.evaluateAll c.evaluationOrder.closed).2

/-- The circuit after some passes. -/
def passes : Nat → Circuit → Circuit
  | 0, c => c
  | n + 1, c => passes n c.pass

/-- The snapshots after each of some passes. -/
def snapshots : Nat → Circuit → List String
  | 0, _ => []
  | n + 1, c => c.pass.snapshot :: snapshots n c.pass

variable {c d : Circuit}

/-! ## Clocks that stand still -/

/-- The components can be looked through for clocks that run. -/
theorem unclocked_iff : c.Unclocked ↔
    ∀ x ∈ c.components.entries, ∀ t ∈ x.kind.timing?, t.enabled = false := by
  constructor
  · intro h x hx t ht
    have hlook : c.component? x.id = some x := Roster.mem_entries_iff.1 hx
    refine h x.id t ?_
    rwa [hlook]
  · intro h id t ht
    obtain ⟨x, hx, ht⟩ := Option.bind_eq_some_iff.1 ht
    exact h x (Roster.get?_eq_some_iff.1 hx).1 t ht

instance (c : Circuit) : Decidable c.Unclocked := decidable_of_iff' _ unclocked_iff

/-- A clock that does not run is never due. -/
theorem isDue_eq_false {s : Source} (h : ∀ t ∈ s.kind.timing?, t.enabled = false) (now : Float) :
    s.isDue now = false := by
  obtain ⟨kind, level⟩ := s
  cases kind with
  | clock t =>
      have hstopped : t.enabled = false := h t rfl
      simp [Source.isDue, Clock.isDue, hstopped]
  | switch | button | high | low => rfl

/-- Where no clock runs, none is due. -/
theorem Unclocked.dueClocks (h : c.Unclocked) (now : Float) : c.dueClocks now = [] := by
  have hnone : ∀ x ∈ c.components.entries, ¬ (x.kind.source?.any (·.isDue now)) = true := by
    intro x hx
    obtain ⟨id, kind, _⟩ := x
    cases kind with
    | source s => simp [Kind.source?, isDue_eq_false (unclocked_iff.1 h _ hx) now]
    | gate g => simp [Kind.source?]
    | sink s => simp [Kind.source?]
  rw [Circuit.dueClocks, List.filter_eq_nil_iff.2 hnone, List.map_nil]

/-- Where no clock runs, none toggles. -/
theorem Unclocked.toggleClocks (h : c.Unclocked) (now : Float) : c.toggleClocks now = c := by
  have hself : ∀ x ∈ c.components.entries, toggleDue now x = x := by
    intro x hx
    obtain ⟨id, kind, _⟩ := x
    cases kind with
    | source s => simp [toggleDue, Kind.mapSource, isDue_eq_false (unclocked_iff.1 h _ hx) now]
    | gate g => rfl
    | sink s => rfl
  have hcomponents : (c.toggleClocks now).components = c.components :=
    Roster.ext ((List.map_congr_left hself).trans (List.map_id _))
  exact congrArg (fun r => { c with components := r }) hcomponents

/-! ## Passes -/

theorem pass_eq_evaluate (c : Circuit) : (Simulator.new.evaluate c).2.2 = c.pass :=
  (Simulator.belongsTo_new c).evaluate_eq.2

theorem frame_pass (c : Circuit) : c.pass.frame = c.frame := frame_evaluateAll _ c

/-- Passes may be counted from the end as well. -/
theorem passes_succ (n : Nat) (c : Circuit) : c.passes (n + 1) = (c.passes n).pass := by
  induction n generalizing c with
  | zero => rfl
  | succ n ih => exact ih c.pass

theorem frame_passes (n : Nat) (c : Circuit) : (c.passes n).frame = c.frame := by
  induction n with
  | zero => rfl
  | succ n ih => rw [passes_succ, frame_pass, ih]

theorem passes_add (n m : Nat) (c : Circuit) : c.passes (n + m) = (c.passes n).passes m := by
  induction m with
  | zero => rfl
  | succ m ih => rw [← Nat.add_assoc, passes_succ, passes_succ, ih]

theorem snapshots_add (n m : Nat) (c : Circuit) :
    c.snapshots (n + m) = c.snapshots n ++ (c.passes n).snapshots m := by
  induction n generalizing c with
  | zero => rw [Nat.zero_add]; rfl
  | succ n ih =>
      rw [Nat.add_right_comm, snapshots, ih]
      rfl

/-- A pass starts and stops no clock. -/
theorem Unclocked.pass (h : c.Unclocked) : c.pass.Unclocked := by
  intro id
  have htiming : ∀ (x : Component) bits, (x.evaluate bits).kind.timing? = x.kind.timing? := by
    intro x bits
    obtain ⟨_, kind, _⟩ := x
    cases kind <;> rfl
  rw [← pass_eq_evaluate, bind_component?_evaluate htiming]
  exact h id

theorem Unclocked.passes (h : c.Unclocked) (n : Nat) : (c.passes n).Unclocked := by
  induction n with
  | zero => exact h
  | succ n ih =>
      rw [passes_succ]
      exact ih.pass

theorem snapshots_eq_map (n : Nat) (c : Circuit) :
    c.snapshots n = (List.range n).map fun k => (c.passes (k + 1)).snapshot := by
  induction n generalizing c with
  | zero => rfl
  | succ n ih =>
      rw [snapshots, ih, List.range_succ_eq_map, List.map_cons, List.map_map]
      rfl

end Circuit

/-! ## Ticks -/

namespace Simulator

variable {s : Simulator} {c d : Circuit} {now : Float}

/-- The end of a tick: the guard sees the state after the pass. -/
def conclude (clocks : List ComponentId) (pass : List ComponentId × Simulator × Circuit) :
    TickReport × Simulator × Circuit :=
  let (changed, s, c) := pass
  let (oscillation, guard) := s.guard.watch s.settings.detect c.snapshot
  (⟨changed, clocks, oscillation⟩, { s with guard }, c)

/-- A tick is a pass over the circuit with its clocks toggled, which the guard watches. -/
theorem tick_eq (s : Simulator) (c : Circuit) (now : Float) :
    s.tick c now =
      conclude (c.dueClocks now) ({ s with lastTime := now }.evaluate (c.toggleClocks now)) := by
  unfold tick conclude Guard.watch
  dsimp only
  split <;> rfl

theorem settings_refresh (s : Simulator) (c : Circuit) : (s.refresh c).settings = s.settings := by
  unfold refresh
  split <;> rfl

theorem lastTime_refresh (s : Simulator) (c : Circuit) : (s.refresh c).lastTime = s.lastTime := by
  unfold refresh
  split <;> rfl

theorem settings_tick (s : Simulator) (c : Circuit) (now : Float) :
    (s.tick c now).2.1.settings = s.settings := by
  rw [tick_eq]
  exact settings_refresh _ _

theorem lastTime_tick (s : Simulator) (c : Circuit) (now : Float) :
    (s.tick c now).2.1.lastTime = now := by
  rw [tick_eq]
  exact lastTime_refresh _ _

theorem guard_refresh (s : Simulator) (c : Circuit) :
    (s.refresh c).guard = if s.revision = some c.revision then s.guard else s.guard.clear := by
  unfold refresh
  split <;> rfl

/-- The simulator belongs to the circuit, and what its guard saw is of the present revision. -/
structure Attends (s : Simulator) (c : Circuit) : Prop where
  /-- The order belongs to the circuit. -/
  belongs : s.BelongsTo c
  /-- The guard stays as it is in the next pass. -/
  guard : (s.refresh c).guard = s.guard

/-- A new simulator attends to any circuit. -/
theorem attends_ofSettings (settings : Settings) (c : Circuit) :
    (ofSettings settings).Attends c :=
  ⟨fun h => (nomatch h), by rw [guard_refresh]; rfl⟩

/-- The guard stays as it is also if the circuit changes within its frame. -/
theorem Attends.of_frame (h : s.Attends c) (hframe : d.frame = c.frame) : s.Attends d := by
  refine ⟨h.belongs.of_frame hframe, ?_⟩
  rw [guard_refresh, Circuit.revision_of_frame hframe, ← guard_refresh]
  exact h.guard

/-- A simulator that knows the revision and has the order of one that belongs to the circuit
attends to it. -/
theorem BelongsTo.attends (h : s.BelongsTo c) {t : Simulator}
    (horder : t.order = (s.refresh c).order) (hrevision : t.revision = some c.revision) :
    t.Attends c where
  belongs := fun _ => horder.trans (h.order_refresh rfl)
  guard := by
    rw [guard_refresh]
    exact if_pos hrevision

/-- What a simulator does along some passes over a circuit: the guard watches the snapshots. -/
structure WatchesPasses (s : Simulator) (c : Circuit) (n : Nat)
    (run : List TickReport × Simulator × Circuit) : Prop where
  oscillations : run.1.map (·.oscillation) =
    (s.guard.watchAll s.settings.detect (c.snapshots n)).1
  guard : run.2.1.guard = (s.guard.watchAll s.settings.detect (c.snapshots n)).2
  circuit : run.2.2 = c.passes n
  settings : run.2.1.settings = s.settings
  attends : run.2.1.Attends run.2.2

/-- Passes that follow on one another make one run. -/
theorem WatchesPasses.append {n m : Nat} {run more : List TickReport × Simulator × Circuit}
    (h : s.WatchesPasses c n run) (hmore : run.2.1.WatchesPasses run.2.2 m more) :
    s.WatchesPasses c (n + m) (run.1 ++ more.1, more.2) := by
  obtain ⟨oscillations, guard, circuit, settings, _⟩ := h
  obtain ⟨oscillations', guard', circuit', settings', attends'⟩ := hmore
  rw [guard, circuit, settings] at oscillations' guard'
  rw [circuit] at circuit'
  refine ⟨?_, ?_, ?_, settings'.trans settings, attends'⟩
  · rw [List.map_append, oscillations, oscillations', Circuit.snapshots_add,
      Guard.watchAll_append]
  · rw [guard', Circuit.snapshots_add, Guard.watchAll_append]
  · rw [circuit', Circuit.passes_add]

/-- Where no clock runs, a tick is a pass. -/
theorem Attends.tick (h : s.Attends c) (hc : c.Unclocked) (now : Float) :
    s.WatchesPasses c 1 ([(s.tick c now).1], (s.tick c now).2) := by
  have htimed : ({ s with lastTime := now } : Simulator).BelongsTo c := h.belongs
  have hcircuit := htimed.evaluate_eq.2
  have hguard : (({ s with lastTime := now } : Simulator).evaluate c).2.1.guard = s.guard := by
    have hkept := h.guard
    rw [guard_refresh] at hkept
    exact (guard_refresh _ c).trans hkept
  have hsettings : (({ s with lastTime := now } : Simulator).evaluate c).2.1.settings =
      s.settings := settings_refresh _ c
  have horder : (({ s with lastTime := now } : Simulator).evaluate c).2.1.order =
      (({ s with lastTime := now } : Simulator).refresh c).order := rfl
  have hrevision : (({ s with lastTime := now } : Simulator).evaluate c).2.1.revision =
      some c.revision := revision_refresh _ c
  rw [tick_eq, hc.toggleClocks]
  generalize ({ s with lastTime := now } : Simulator).evaluate c = pass at *
  obtain ⟨changed, s', d⟩ := pass
  obtain rfl : d = c.pass := hcircuit
  have hwatch : s'.guard.watch s'.settings.detect c.pass.snapshot =
      s.guard.watch s.settings.detect c.pass.snapshot := by
    have hguard : s'.guard = s.guard := hguard
    have hsettings : s'.settings = s.settings := hsettings
    rw [hguard, hsettings]
  refine ⟨?_, congrArg Prod.snd hwatch, rfl, hsettings, ?_⟩
  · exact congrArg (fun report => [report.1]) hwatch
  · -- the order and the revision are those of the pass, whatever the guard became
    have hattends := htimed.attends (t := (conclude (c.dueClocks now) (changed, s', c.pass)).2.1)
      horder hrevision
    exact hattends.of_frame c.frame_pass

/-- Where no clock runs, ticks at whatever times are passes, and the guard reports on the
snapshots after them. -/
theorem Attends.ticks (h : s.Attends c) (hc : c.Unclocked) (times : List Float) :
    s.WatchesPasses c times.length (s.ticks times c) := by
  induction times generalizing s c with
  | nil => exact ⟨rfl, rfl, rfl, rfl, h⟩
  | cons now times ih =>
      have htick := h.tick hc now
      have hunclocked : (s.tick c now).2.2.Unclocked := by
        rw [htick.circuit]
        exact hc.pass
      rw [List.length_cons, Nat.add_comm]
      exact htick.append (ih htick.attends hunclocked)

end Simulator

end LogicCircuit
