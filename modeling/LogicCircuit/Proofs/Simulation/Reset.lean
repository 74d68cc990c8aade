import LogicCircuit.Proofs.Simulation.Outline
import LogicCircuit.Proofs.Simulation.Ticks

/-!
# A reset erases the past

After a reset nothing is left of what happened before, except the time of the simulator. Two
sessions whose circuits are built alike have, once both are reset, circuits with the same outline
(`Circuit.BuiltAlike.outline_reset`), and two simulators that will use the same order. From there
on they go in step: `Session.InStep` is kept by every event that leaves the topology alone, and
the answers to such an event agree (`InStep.perform`, `InStep.answer`). `reset_erases_history` is
the result for all sequences of events, loops of wires included.
-/

namespace LogicCircuit

/-! ## Circuits that are built alike -/

/-- Whether the clock of a kind runs, and at which frequency. -/
def Kind.rate? (k : Kind) : Option (Bool × Float) :=
  k.timing?.map fun t => (t.enabled, t.frequency)

/-- What a component was set up as. -/
structure Component.Setup where
  /-- What it is, with its state blanked out. -/
  kind : Kind
  /-- Whether its clock runs, and at which frequency. -/
  rate : Option (Bool × Float)
  /-- The name that people gave it. -/
  label : Option String
  deriving DecidableEq

/-- What a component was set up as. -/
def Component.setup (x : Component) : Component.Setup := ⟨x.kind.blank, x.kind.rate?, x.label⟩

/-- Circuits with the same components and the same drivers on each slot. Levels, outputs, bits and
histories may differ, and so may the names of the wires and the places on the plane. -/
structure Circuit.BuiltAlike (c d : Circuit) : Prop where
  /-- The names are the same. -/
  ids : d.ids = c.ids
  /-- A name stands for components that were set up alike. -/
  setup : ∀ id ∈ c.ids, (d.component? id).map (·.setup) = (c.component? id).map (·.setup)
  /-- The same components drive their slots. -/
  drivers : ∀ id ∈ c.ids, d.driversOf id = c.driversOf id

/-- What is left of a component after a reset depends on its name and its setup. -/
theorem Component.bare_reset_eq {x y : Component} (hid : y.id = x.id) (hsetup : y.setup = x.setup)
    (now : Float) : (y.reset now).bare = (x.reset now).bare := by
  obtain ⟨hblank, hrate, hlabel⟩ := Setup.mk.inj hsetup
  obtain ⟨id, k, _, label, _⟩ := x
  obtain ⟨id', l, _, label', _⟩ := y
  obtain rfl : id' = id := hid
  obtain rfl : label' = label := hlabel
  cases k <;> cases l <;>
    simp only [Kind.blank, Kind.gate.injEq, Kind.source.injEq, Kind.sink.injEq, reduceCtorEq]
      at hblank
  case gate.gate g g' =>
    subst hblank
    rfl
  case sink.sink s t => simp only [reset, bare, Sink.reset_eq_blank, hblank]
  case source.source s t =>
    obtain ⟨kind, level⟩ := s
    obtain ⟨kind', level'⟩ := t
    cases kind <;> cases kind' <;> cases hblank <;> try rfl
    case clock.clock timing timing' =>
      -- the clocks agree but for the time of their last toggle, which the reset overwrites
      obtain ⟨henabled, hfrequency⟩ := Prod.mk.inj (Option.some.inj hrate)
      obtain ⟨enabled, frequency, last⟩ := timing
      obtain ⟨enabled', frequency', last'⟩ := timing'
      obtain rfl : enabled' = enabled := henabled
      obtain rfl : frequency' = frequency := hfrequency
      rfl

/-- Circuits that are built alike have the same outline after a reset. -/
theorem Circuit.BuiltAlike.outline_reset {c d : Circuit} (h : c.BuiltAlike d) (now : Float) :
    (d.reset now).outline = (c.reset now).outline := by
  have hread : ∀ c : Circuit, (c.reset now).components.entries.map (·.bare) =
      c.ids.filterMap fun id => (c.component? id).map fun x => (x.reset now).bare := by
    intro c
    have hlook : ∀ x ∈ c.components.entries,
        (c.component? x.id).map (fun x => (x.reset now).bare) = some (x.reset now).bare :=
      fun x hx => by
        have hself : c.component? x.id = some x := Roster.mem_entries_iff.1 hx
        rw [hself, Option.map_some]
    have hids : c.ids.filterMap (fun id => (c.component? id).map fun x => (x.reset now).bare) =
        c.components.entries.filterMap fun x => some (x.reset now).bare :=
      List.filterMap_map.trans (List.filterMap_congr hlook)
    rw [hids, List.filterMap_eq_map', reset, Roster.map, List.map_map]
    rfl
  have hcomponents : ∀ id ∈ c.ids, (d.component? id).map (fun x => (x.reset now).bare) =
      (c.component? id).map fun x => (x.reset now).bare := by
    intro id hid
    have hsetup := h.setup id hid
    cases hx : c.component? id with
    | none =>
        rw [hx, Option.map_none, Option.map_eq_none_iff] at hsetup
        rw [hsetup]
    | some x =>
        rw [hx, Option.map_some, Option.map_eq_some_iff] at hsetup
        obtain ⟨y, hy, hxy⟩ := hsetup
        have hname : y.id = x.id := (Roster.name_of_get? hy).trans (Roster.name_of_get? hx).symm
        rw [hy, Option.map_some, Option.map_some, Component.bare_reset_eq hname hxy]
  have hdrivers : d.driversOf = c.driversOf := by
    funext id
    by_cases hid : id ∈ c.ids
    · exact h.drivers id hid
    · -- what is no component has no slots
      have hnone : ∀ c : Circuit, id ∉ c.ids → c.driversOf id = [] := fun c hid => by
        cases hx : c.component? id with
        | none => rw [driversOf, hx]
        | some x => exact absurd (mem_ids_iff.2 ⟨x, hx⟩) hid
      rw [hnone c hid, hnone d (h.ids ▸ hid)]
  rw [outline, outline, hread, hread, h.ids, List.filterMap_congr hcomponents,
    driversOf_of_frame (d.frame_reset now), driversOf_of_frame (c.frame_reset now), hdrivers]

/-! ## Simulators -/

/-- The simulators that any use of a new one leads to, on whatever circuits. -/
inductive Simulator.Reachable : Simulator → Prop where
  | new (settings : Settings) : Reachable (.ofSettings settings)
  | refresh {s : Simulator} (c : Circuit) : Reachable s → Reachable (s.refresh c)
  | evaluate {s : Simulator} (c : Circuit) : Reachable s → Reachable (s.evaluate c).2.1
  | tick {s : Simulator} (c : Circuit) (now : Float) : Reachable s → Reachable (s.tick c now).2.1
  | step {s : Simulator} (c : Circuit) : Reachable s → Reachable (s.step c).2.1
  | reset {s : Simulator} (c : Circuit) : Reachable s → Reachable (s.reset c).1

namespace Simulator

variable {s : Simulator} {c : Circuit}

/-- The oscillation guard is the one that the settings ask for. -/
def Guarded (s : Simulator) : Prop :=
  s.guard.size = s.settings.window ∧ s.guard.threshold = s.settings.threshold

theorem Guarded.refresh (h : s.Guarded) (c : Circuit) : (s.refresh c).Guarded := by
  unfold Simulator.refresh
  split <;> exact h

/-- A guard keeps its size and its threshold. -/
theorem guard_record (g : Guard) (state : String) :
    (g.record state).2.size = g.size ∧ (g.record state).2.threshold = g.threshold := by
  unfold Guard.record
  dsimp only
  split <;> exact ⟨rfl, rfl⟩

theorem guard_watch (on : Bool) (state : String) (g : Guard) :
    (g.watch on state).2.size = g.size ∧ (g.watch on state).2.threshold = g.threshold := by
  unfold Guard.watch
  split
  · exact guard_record g state
  · exact ⟨rfl, rfl⟩

theorem Guarded.tick (h : s.Guarded) (c : Circuit) (now : Float) :
    (s.tick c now).2.1.Guarded := by
  have htimed : ({ s with lastTime := now } : Simulator).Guarded := h
  obtain ⟨hsize, hthreshold⟩ := htimed.refresh (c.toggleClocks now)
  rw [tick_eq]
  obtain ⟨hsize', hthreshold'⟩ := guard_watch _ _ _
  exact ⟨hsize'.trans hsize, hthreshold'.trans hthreshold⟩

/-- A simulator keeps the guard that its settings ask for. -/
theorem Reachable.guarded (h : s.Reachable) : s.Guarded := by
  induction h with
  | new settings => exact ⟨rfl, rfl⟩
  | refresh c _ ih => exact ih.refresh c
  | evaluate c _ ih => exact ih.refresh c
  | tick c now _ ih => exact ih.tick c now
  | step c _ ih => exact ih.tick c _
  | reset c _ ih => exact ih

end Simulator

/-! ## Sessions in step -/

/-- What an event reports. -/
inductive Answer where
  /-- Whether a setting applied. -/
  | applied (b : Bool)
  /-- The order of evaluation. -/
  | order (t : Traversal ComponentId)
  /-- The components that a pass changed. -/
  | changed (ids : List ComponentId)
  /-- What a tick did. -/
  | report (r : TickReport)
  /-- The output of a component and what is on its slots. -/
  | trace (t : Option (Bool × List TracedInput))
  /-- A reset is done. -/
  | done

/-- The event leaves the topology alone: an edit is a setting. -/
def Event.KeepsTopology : Event → Prop
  | .edit e => e.setting?.isSome
  | _ => True

/-- What each component shows: its name, its value, its output and whether its last evaluation
changed it. -/
def Circuit.readings (c : Circuit) : List (ComponentId × Value × Bool × Bool) :=
  c.components.entries.map fun x => (x.id, x.value, x.output, x.changed)

namespace Session

/-- What the session reports for an event. -/
def answer (t : Session) : Event → Answer
  | .edit e => .applied (e.setting?.bind (· t.circuit)).isSome
  | .order => .order (t.simulator.refresh t.circuit).order
  | .evaluate => .changed (t.simulator.evaluate t.circuit).1
  | .tick now => .report (t.simulator.tick t.circuit now).1
  | .step => .report (t.simulator.step t.circuit).1
  | .reset => .done
  | .trace id => .trace (t.circuit.trace? id)

/-- What the session reports for several events in turn. -/
def answers : List Event → Session → List Answer
  | [], _ => []
  | e :: events, t => t.answer e :: answers events (t.perform e)

/-- Two sessions that cannot be told apart from here on: the circuits have the same outline, the
simulators the same time and the same guard, and both know the same order or none. -/
structure InStep (t u : Session) : Prop where
  outline : u.circuit.outline = t.circuit.outline
  settings : u.simulator.settings = t.simulator.settings
  guard : u.simulator.guard = t.simulator.guard
  lastTime : u.simulator.lastTime = t.simulator.lastTime
  /-- Both keep an order for their circuit or neither does. -/
  revision : u.simulator.revision = some u.circuit.revision ↔
    t.simulator.revision = some t.circuit.revision
  /-- The orders that they keep are the same. -/
  order : t.simulator.revision = some t.circuit.revision →
    u.simulator.order = t.simulator.order

namespace InStep

variable {s s' : Simulator} {c d c' d' : Circuit} {t u : Session}

/-- The circuits may change as long as their outlines and their revisions do not part. -/
theorem withCircuits (h : InStep ⟨s, c⟩ ⟨s', d⟩) (hout : d'.outline = c'.outline)
    (hc : c'.revision = c.revision) (hd : d'.revision = d.revision) :
    InStep ⟨s, c'⟩ ⟨s', d'⟩ where
  outline := hout
  settings := h.settings
  guard := h.guard
  lastTime := h.lastTime
  revision := by
    show s'.revision = some d'.revision ↔ s.revision = some c'.revision
    rw [hc, hd]
    exact h.revision
  order := fun hknown => h.order (hknown.trans (congrArg some hc))

/-- The simulators may be set to the same time. -/
theorem atTime (h : InStep ⟨s, c⟩ ⟨s', d⟩) (now : Float) :
    InStep ⟨{ s with lastTime := now }, c⟩ ⟨{ s' with lastTime := now }, d⟩ :=
  { h with lastTime := rfl }

/-- The simulators find the same order. -/
theorem refresh (h : InStep ⟨s, c⟩ ⟨s', d⟩) : InStep ⟨s.refresh c, c⟩ ⟨s'.refresh d, d⟩ := by
  by_cases hknown : s.revision = some c.revision
  · have hs : s.refresh c = s := if_pos hknown
    have hs' : s'.refresh d = s' := if_pos (h.revision.2 hknown)
    rwa [hs, hs']
  · have hs : s.refresh c =
        { s with
          order := c.evaluationOrder, revision := some c.revision, guard := s.guard.clear } :=
      if_neg hknown
    have hs' : s'.refresh d =
        { s' with
          order := d.evaluationOrder, revision := some d.revision, guard := s'.guard.clear } :=
      if_neg (mt h.revision.1 hknown)
    rw [hs, hs']
    exact ⟨h.outline, h.settings, congrArg Guard.clear h.guard, h.lastTime, by simp,
      fun _ => Circuit.evaluationOrder_of_outline h.outline⟩

/-- The simulators have the same order once they are refreshed. -/
theorem order_refresh (h : InStep ⟨s, c⟩ ⟨s', d⟩) : (s'.refresh d).order = (s.refresh c).order :=
  h.refresh.order (s.revision_refresh c)

/-- A pass reports the same changes and leaves the sessions in step. -/
theorem evaluate (h : InStep ⟨s, c⟩ ⟨s', d⟩) : (s'.evaluate d).1 = (s.evaluate c).1 ∧
    InStep ⟨(s.evaluate c).2.1, (s.evaluate c).2.2⟩
      ⟨(s'.evaluate d).2.1, (s'.evaluate d).2.2⟩ := by
  have horder := congrArg Traversal.closed h.order_refresh
  obtain ⟨hchanged, hout⟩ := Circuit.outline_evaluateAll h.outline (s.refresh c).order.closed
  rw [← horder] at hchanged hout
  rw [horder] at hchanged hout
  have hpassed : InStep ⟨(s.evaluate c).2.1, c⟩ ⟨(s'.evaluate d).2.1, d⟩ := { h.refresh with }
  have hc := Circuit.revision_of_frame (Circuit.frame_evaluate s c)
  have hd := Circuit.revision_of_frame (Circuit.frame_evaluate s' d)
  have hleft : (s'.evaluate d).2.2.outline = (s.evaluate c).2.2.outline := by
    show (d.evaluateAll (s'.refresh d).order.closed).2.outline = _
    rw [horder]
    exact hout
  refine ⟨?_, hpassed.withCircuits hleft hc hd⟩
  show (d.evaluateAll (s'.refresh d).order.closed).1 = _
  rw [horder]
  exact hchanged

/-- A tick reports the same and leaves the sessions in step. -/
theorem tick (h : InStep ⟨s, c⟩ ⟨s', d⟩) (now : Float) :
    (s'.tick d now).1 = (s.tick c now).1 ∧
      InStep ⟨(s.tick c now).2.1, (s.tick c now).2.2⟩
        ⟨(s'.tick d now).2.1, (s'.tick d now).2.2⟩ := by
  have hclocks := Circuit.dueClocks_of_outline h.outline now
  have htoggled := (h.atTime now).withCircuits (Circuit.outline_toggleClocks h.outline now)
    (Circuit.revision_of_frame (c.frame_toggleClocks now))
    (Circuit.revision_of_frame (d.frame_toggleClocks now))
  obtain ⟨hchanged, hpass⟩ := htoggled.evaluate
  rw [Simulator.tick_eq, Simulator.tick_eq]
  generalize ({ s with lastTime := now } : Simulator).evaluate (c.toggleClocks now) = pass at *
  generalize ({ s' with lastTime := now } : Simulator).evaluate (d.toggleClocks now) = pass' at *
  obtain ⟨changed, s₁, c₁⟩ := pass
  obtain ⟨changed', s₁', d₁⟩ := pass'
  obtain rfl : changed' = changed := hchanged
  have hwatch : s₁'.guard.watch s₁'.settings.detect d₁.snapshot =
      s₁.guard.watch s₁.settings.detect c₁.snapshot := by
    have hguard : s₁'.guard = s₁.guard := hpass.guard
    have hsettings : s₁'.settings = s₁.settings := hpass.settings
    have hsnapshot : d₁.snapshot = c₁.snapshot := Circuit.snapshot_of_outline hpass.outline
    rw [hguard, hsettings, hsnapshot]
  refine ⟨?_, { hpass with guard := congrArg Prod.snd hwatch }⟩
  have hclocks : d.dueClocks now = c.dueClocks now := hclocks
  simp only [Simulator.conclude, hwatch, hclocks]

/-- A reset leaves the sessions in step. -/
theorem reset (h : InStep ⟨s, c⟩ ⟨s', d⟩) :
    InStep ⟨(s.reset c).1, (s.reset c).2⟩ ⟨(s'.reset d).1, (s'.reset d).2⟩ where
  outline := by
    have htime : s'.lastTime = s.lastTime := h.lastTime
    show (d.reset s'.lastTime).outline = (c.reset s.lastTime).outline
    rw [htime]
    exact Circuit.outline_reset h.outline s.lastTime
  settings := h.settings
  guard := congrArg Guard.clear h.guard
  lastTime := h.lastTime
  revision := ⟨(nomatch ·), (nomatch ·)⟩
  order := (nomatch ·)

/-- A setting applies in both sessions or in neither, and leaves them in step. -/
theorem setting (h : InStep ⟨s, c⟩ ⟨s', d⟩) {e : Edit} {set : Circuit → Option Circuit}
    (hset : e.setting? = some set) :
    (set d).isSome = (set c).isSome ∧ InStep ⟨s, e.apply c⟩ ⟨s', e.apply d⟩ := by
  have hout := Edit.outline_of_setting hset h.outline
  dsimp only at hout
  rw [e.apply_of_setting hset, e.apply_of_setting hset]
  cases hc : set c with
  | none =>
      rw [hc, Option.map_none, Option.map_eq_none_iff] at hout
      rw [hout]
      exact ⟨rfl, h⟩
  | some c' =>
      rw [hc, Option.map_some, Option.map_eq_some_iff] at hout
      obtain ⟨d', hd, hout⟩ := hout
      rw [hd]
      exact ⟨rfl, h.withCircuits hout (Circuit.revision_of_frame (e.frame_of_setting hset hc))
        (Circuit.revision_of_frame (e.frame_of_setting hset hd))⟩

/-- Sessions in step report the same for an event that leaves the topology alone, and stay in
step. -/
theorem perform (h : InStep t u) {event : Event} (hevent : event.KeepsTopology) :
    u.answer event = t.answer event ∧ InStep (t.perform event) (u.perform event) := by
  obtain ⟨s, c⟩ := t
  obtain ⟨s', d⟩ := u
  cases event with
  | edit e =>
      obtain ⟨set, hset⟩ := Option.isSome_iff_exists.1 hevent
      obtain ⟨hsome, hstep⟩ := h.setting hset
      refine ⟨?_, hstep⟩
      simp only [answer, hset, Option.bind_some, hsome]
  | order => exact ⟨congrArg Answer.order h.order_refresh, h.refresh⟩
  | evaluate =>
      obtain ⟨hchanged, hstep⟩ := h.evaluate
      exact ⟨congrArg Answer.changed hchanged, hstep⟩
  | tick now =>
      obtain ⟨hreport, hstep⟩ := h.tick now
      exact ⟨congrArg Answer.report hreport, hstep⟩
  | step =>
      have htime : s'.step d = s'.tick d (s.lastTime + s.settings.interval) := by
        have hlast : s'.lastTime = s.lastTime := h.lastTime
        have hsettings : s'.settings = s.settings := h.settings
        rw [Simulator.step, hlast, hsettings]
      obtain ⟨hreport, hstep⟩ := h.tick (s.lastTime + s.settings.interval)
      rw [← htime] at hreport hstep
      exact ⟨congrArg Answer.report hreport, hstep⟩
  | reset => exact ⟨rfl, h.reset⟩
  | trace id => exact ⟨congrArg Answer.trace (Circuit.trace?_of_outline h.outline id), h⟩

/-- Sessions in step report the same for all such events. -/
theorem performAll (h : InStep t u) {events : List Event}
    (hevents : ∀ e ∈ events, e.KeepsTopology) :
    u.answers events = t.answers events ∧
      InStep (performAll events t) (performAll events u) := by
  induction events generalizing t u with
  | nil => exact ⟨rfl, h⟩
  | cons e events ih =>
      obtain ⟨he, hevents⟩ := List.forall_mem_cons.1 hevents
      obtain ⟨hanswer, hstep⟩ := h.perform he
      obtain ⟨hanswers, hend⟩ := ih hstep hevents
      refine ⟨?_, hend⟩
      rw [answers, answers, hanswer, hanswers]

/-- Sessions in step show the same. -/
theorem readings_eq (h : InStep t u) : u.circuit.readings = t.circuit.readings :=
  Circuit.map_of_outline h.outline _ fun _ => rfl

/-- Circuits that are built alike and simulators with the same settings and the same time are in
step once they are reset. -/
theorem of_reset (hs : s.Guarded) (hs' : s'.Guarded) (hbuilt : c.BuiltAlike d)
    (hsettings : s'.settings = s.settings) (htime : s'.lastTime = s.lastTime) :
    InStep (Session.perform ⟨s, c⟩ .reset) (Session.perform ⟨s', d⟩ .reset) where
  outline := by
    show (d.reset s'.lastTime).outline = (c.reset s.lastTime).outline
    rw [htime]
    exact hbuilt.outline_reset s.lastTime
  settings := hsettings
  guard := by
    show s'.guard.clear = s.guard.clear
    rw [Guard.clear, Guard.clear, Guard.mk.injEq, hs.1, hs.2, hs'.1, hs'.2, hsettings]
    exact ⟨rfl, rfl, rfl⟩
  lastTime := htime
  revision := ⟨(nomatch ·), (nomatch ·)⟩
  order := (nomatch ·)

end InStep

end Session

/-- A reset erases history. Take two simulators with the same settings and the same time, each
after any use, and two circuits that are built alike, in any state. After a reset of both, all
events that leave the topology alone report the same, and all components show the same afterwards.
-/
theorem reset_erases_history {s s' : Simulator} {c d : Circuit} (hs : s.Reachable)
    (hs' : s'.Reachable) (hbuilt : c.BuiltAlike d) (hsettings : s'.settings = s.settings)
    (htime : s'.lastTime = s.lastTime) {events : List Event}
    (hevents : ∀ e ∈ events, e.KeepsTopology) :
    let t := Session.perform ⟨s, c⟩ .reset
    let u := Session.perform ⟨s', d⟩ .reset
    u.answers events = t.answers events ∧
      (Session.performAll events u).circuit.readings =
        (Session.performAll events t).circuit.readings := by
  intro t u
  have hstep := Session.InStep.of_reset hs.guarded hs'.guarded hbuilt hsettings htime
  obtain ⟨hanswers, hend⟩ := hstep.performAll hevents
  exact ⟨hanswers, hend.readings_eq⟩

/-- The latch after some use: a tick, then a wire gave way to another and a switch was flipped. -/
def usedLatch : Circuit :=
  Edit.applyAll [.disconnect "connection-10", .connect "set" "both" 1, .toggle "set"]
    (Simulator.new.tick latch 0).2.2

/-- The used latch differs from the latch in its wires and its outputs, and its simulator keeps an
order; once both are reset, a switch is flipped, and they report the same. -/
theorem reset_erases_history_latch :
    let used := (Simulator.new.tick latch 0).2.1
    latch.wires ≠ usedLatch.wires ∧ latch.readings ≠ usedLatch.readings ∧
      used.order ≠ Simulator.new.order ∧ latch.BuiltAlike usedLatch ∧
      let events : List Event := [.tick 0, .edit (.toggle "set"), .evaluate, .step]
      (Session.perform ⟨used, usedLatch⟩ .reset).answers events =
        (Session.perform ⟨.new, latch⟩ .reset).answers events := by
  intro used
  have hbuilt : latch.BuiltAlike usedLatch :=
    ⟨by decide +kernel, by decide +kernel, by decide +kernel⟩
  have hnew : Simulator.new.Reachable := .new .standard
  have hevents : ∀ e ∈ ([.tick 0, .edit (.toggle "set"), .evaluate, .step] : List Event),
      e.KeepsTopology := by
    simp [Event.KeepsTopology, Edit.setting?]
  exact ⟨by decide +kernel, by decide +kernel, by decide +kernel, hbuilt,
    (reset_erases_history hnew (hnew.tick latch 0) hbuilt (Simulator.settings_tick _ latch 0)
      (Simulator.lastTime_tick _ latch 0) hevents).1⟩

end LogicCircuit
