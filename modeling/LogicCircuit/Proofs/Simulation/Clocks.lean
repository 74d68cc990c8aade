import LogicCircuit.Proofs.Simulation.Ticks

/-!
# What a tick leaves alone

A tick toggles the clocks that are due, makes a pass and shows the result to the guard. The pass
writes outputs, flags and what sinks have seen, so of the stored state only clocks move
(`Component.Ticked`). The clocks toggle one after another, each at its turn: in which order makes
no difference (`Circuit.toggleInTurn_eq`), since no clock reads another component. The main result
is `tick_moves_due_clocks`.
-/

namespace LogicCircuit

/-- A source after a tick at some time: a clock that is due has toggled. -/
def Source.ticked (s : Source) (now : Float) : Source :=
  if s.isDue now then s.toggleAt now else s

/-- A kind with a source is that source. -/
theorem Kind.eq_source_of_source? {k : Kind} {s : Source} (h : k.source? = some s) :
    k = .source s := by
  cases k with
  | source t => exact congrArg Kind.source (Option.some.inj h)
  | gate g => cases h
  | sink t => cases h

namespace Component

/-- What a tick at some time leaves of a component. -/
structure Ticked (now : Float) (x y : Component) : Prop where
  id : y.id = x.id
  label : y.label = x.label
  position : y.position = x.position
  slots : y.slots = x.slots
  /-- It is what it was, but for its state. -/
  kind : y.kind.blank = x.kind.blank
  /-- A source that is no clock is not touched. -/
  source : ∀ s, x.kind = .source s → s.kind.timing? = none → y.kind = .source s
  /-- A clock toggles exactly if it is due, and nothing else happens to it. -/
  clock : ∀ timing level, x.kind = .source ⟨.clock timing, level⟩ → ∃ timing' level',
    y.kind = .source ⟨.clock timing', level'⟩ ∧ timing'.enabled = timing.enabled ∧
      timing'.frequency = timing.frequency ∧
      (level' = (!level) ∧ timing'.lastToggle = now ↔ timing.isDue now = true) ∧
      (timing.isDue now = false → timing' = timing ∧ level' = level)

/-- What evaluations keep of a component. -/
def kept (x : Component) : Frame × Option String × Point × Option Source :=
  (x.frame, x.label, x.position, x.kind.source?)

theorem kept_evaluate (x : Component) (bits : List Bool) : (x.evaluate bits).kept = x.kept := by
  have hframe := x.frame_evaluate bits
  have hlabel := x.label_evaluate bits
  have hposition : (x.evaluate bits).position = x.position := by
    unfold evaluate
    split <;> rfl
  have hsource : (x.evaluate bits).kind.source? = x.kind.source? := by
    obtain ⟨_, kind, _⟩ := x
    cases kind <;> rfl
  rw [kept, kept, hframe, hlabel, hposition, hsource]

theorem kept_toggleDue (x : Component) (now : Float) : (Circuit.toggleDue now x).kept =
    (x.frame, x.label, x.position, x.kind.source?.map (·.ticked now)) := by
  have hsource : (Circuit.toggleDue now x).kind.source? = x.kind.source?.map (·.ticked now) := by
    obtain ⟨_, kind, _⟩ := x
    cases kind <;> rfl
  rw [kept, x.frame_toggleDue, hsource]
  rfl

/-- What is kept of the toggled component is left by the tick. -/
theorem ticked_of_kept {x y : Component} {now : Float}
    (h : y.kept = (Circuit.toggleDue now x).kept) : x.Ticked now y := by
  rw [kept_toggleDue] at h
  obtain ⟨hframe, hlabel, hposition, hsource⟩ := by simpa only [kept, Prod.mk.injEq] using h
  obtain ⟨hid, hslots, hkind⟩ := Frame.mk.inj hframe
  have hlook : ∀ s, x.kind = .source s → y.kind = .source (s.ticked now) := fun s hs =>
    Kind.eq_source_of_source? (by rw [hsource, hs]; rfl)
  refine ⟨hid, hlabel, hposition, hslots, hkind, fun s hs hno => ?_, fun timing level hs => ?_⟩
  · have hidle : s.isDue now = false := by
      obtain ⟨kind, level⟩ := s
      cases kind with
      | clock timing => cases hno
      | switch | button | high | low => rfl
    rw [hlook s hs, Source.ticked, hidle]
    rfl
  · have hy := hlook _ hs
    cases hdue : timing.isDue now with
    | true =>
        have hticked : Source.ticked ⟨.clock timing, level⟩ now =
            ⟨.clock { timing with lastToggle := now }, !level⟩ := if_pos hdue
        rw [hticked] at hy
        exact ⟨_, _, hy, rfl, rfl, by simp, by simp⟩
    | false =>
        have hticked : Source.ticked ⟨.clock timing, level⟩ now = ⟨.clock timing, level⟩ :=
          if_neg (by simp [Source.isDue, hdue])
        rw [hticked] at hy
        exact ⟨_, _, hy, rfl, rfl, by simp, fun _ => ⟨rfl, rfl⟩⟩

end Component

namespace Circuit

variable {c : Circuit} {id : ComponentId} {now : Float}

/-! ## Clocks in turn -/

/-- Whether a component is a clock that is due. -/
def isDue (c : Circuit) (now : Float) (id : ComponentId) : Bool :=
  ((c.component? id).bind (·.kind.source?)).any (·.isDue now)

/-- Toggles one component if it is a clock that is due. -/
def toggleOne (now : Float) (id : ComponentId) (c : Circuit) : Circuit :=
  c.modify id (toggleDue now) fun _ => rfl

/-- Goes through components in turn: each clock that is due at its turn is noted and toggles. -/
def toggleInTurn (now : Float) : List ComponentId → Circuit → List ComponentId × Circuit
  | [], c => ([], c)
  | id :: order, c =>
    let rest := toggleInTurn now order (c.toggleOne now id)
    (if c.isDue now id then id :: rest.1 else rest.1, rest.2)

theorem component?_toggleOne (c : Circuit) (id a : ComponentId) :
    (c.toggleOne now id).component? a =
      if a = id then (c.component? a).map (toggleDue now) else c.component? a :=
  component?_modify c id (toggleDue now) (fun _ => rfl) a

/-- What is noted in turn are those that are due before the first turn: no turn changes another
component. -/
theorem toggleInTurn_fst {order : List ComponentId} (h : order.Nodup) (c : Circuit) :
    (toggleInTurn now order c).1 = order.filter (c.isDue now) := by
  induction order generalizing c with
  | nil => rfl
  | cons id order ih =>
      obtain ⟨hid, horder⟩ := List.nodup_cons.1 h
      have hlater : order.filter ((c.toggleOne now id).isDue now) =
          order.filter (c.isDue now) := by
        refine List.filter_congr fun a ha => ?_
        have hne : a ≠ id := fun e => hid (e ▸ ha)
        rw [isDue, isDue, component?_toggleOne, if_neg hne]
      rw [toggleInTurn, ih horder, hlater, List.filter_cons]

/-- What a look-up finds after some turns: the components that had one are toggled. -/
theorem component?_toggleInTurn {order : List ComponentId} (h : order.Nodup) (c : Circuit)
    (a : ComponentId) : (toggleInTurn now order c).2.component? a =
      if a ∈ order then (c.component? a).map (toggleDue now) else c.component? a := by
  induction order generalizing c with
  | nil => rfl
  | cons id order ih =>
      obtain ⟨hid, horder⟩ := List.nodup_cons.1 h
      refine (ih horder _).trans ?_
      rw [component?_toggleOne]
      by_cases ha : a = id
      · simp [ha, hid]
      · simp [ha]

theorem frame_toggleInTurn (order : List ComponentId) (c : Circuit) :
    (toggleInTurn now order c).2.frame = c.frame := by
  induction order generalizing c with
  | nil => rfl
  | cons id order ih =>
      exact (ih _).trans (frame_modify c id _ _ fun x => x.frame_toggleDue now)

theorem component?_toggleClocks (c : Circuit) (now : Float) (id : ComponentId) :
    (c.toggleClocks now).component? id = (c.component? id).map (toggleDue now) :=
  Roster.get?_map c.components (toggleDue now) (fun _ => rfl) id

/-- The clocks that are due are those that are found to be, by name. -/
theorem dueClocks_eq_filter (c : Circuit) (now : Float) :
    c.dueClocks now = c.ids.filter (c.isDue now) := by
  rw [dueClocks, ids, List.filter_map]
  refine congrArg _ (List.filter_congr fun x hx => ?_)
  have hlook : c.component? x.id = some x := Roster.mem_entries_iff.1 hx
  simp [isDue, hlook]

/-- Clocks toggle in any order to the same effect. -/
theorem toggleInTurn_eq {order : List ComponentId} (h : order.Perm c.ids) :
    (toggleInTurn now order c).1.Perm (c.dueClocks now) ∧
      (toggleInTurn now order c).2 = c.toggleClocks now := by
  have hnodup : order.Nodup := h.nodup_iff.2 c.nodup_ids
  constructor
  · rw [toggleInTurn_fst hnodup, dueClocks_eq_filter]
    exact h.filter _
  · refine eq_of_component? ?_ fun id => ?_
    · rw [frame_toggleInTurn, frame_toggleClocks]
    · rw [component?_toggleInTurn hnodup, component?_toggleClocks]
      split
      · rfl
      · rename_i hid
        have hnone : c.component? id = none := by
          rw [h.mem_iff, mem_ids_iff, not_exists] at hid
          exact Option.eq_none_iff_forall_ne_some.2 hid
        rw [hnone, Option.map_none]

/-! ## Names of clocks -/

/-- The clocks that toggle are listed by name. -/
theorem pairwise_dueClocks (c : Circuit) (now : Float) :
    (c.dueClocks now).Pairwise (· < ·) := by
  rw [dueClocks, List.pairwise_map]
  exact c.components.increasing.filter _

theorem mem_dueClocks_iff : id ∈ c.dueClocks now ↔
    ∃ x timing level, c.component? id = some x ∧ x.kind = .source ⟨.clock timing, level⟩ ∧
      timing.isDue now = true := by
  have hdue : c.isDue now id = true ↔
      ∃ x timing level, c.component? id = some x ∧ x.kind = .source ⟨.clock timing, level⟩ ∧
        timing.isDue now = true := by
    rw [isDue, Option.any_eq_true]
    constructor
    · rintro ⟨s, hs, hdue⟩
      obtain ⟨x, hx, hsource⟩ := Option.bind_eq_some_iff.1 hs
      obtain ⟨kind, level⟩ := s
      cases kind with
      | clock timing =>
          exact ⟨x, timing, level, hx, Kind.eq_source_of_source? hsource, hdue⟩
      | switch | button | high | low => cases hdue
    · rintro ⟨x, timing, level, hx, hk, hdue⟩
      exact ⟨⟨.clock timing, level⟩, by rw [hx, Option.bind_some, hk]; rfl, hdue⟩
  rw [dueClocks_eq_filter, List.mem_filter, hdue]
  refine and_iff_right_of_imp fun ⟨x, _, _, hx, _⟩ => mem_ids_of_component? hx

end Circuit

namespace Simulator

/-- A pass does not depend on the time that the simulator keeps. -/
theorem evaluate_atTime (s : Simulator) (c : Circuit) (now : Float) :
    (({ s with lastTime := now } : Simulator).evaluate c).1 = (s.evaluate c).1 ∧
      (({ s with lastTime := now } : Simulator).evaluate c).2.2 = (s.evaluate c).2.2 := by
  have horder : (({ s with lastTime := now } : Simulator).refresh c).order =
      (s.refresh c).order := by
    unfold refresh
    dsimp only
    split <;> rfl
  unfold evaluate
  dsimp only
  rw [horder]
  exact ⟨rfl, rfl⟩

theorem clocks_tick (s : Simulator) (c : Circuit) (now : Float) :
    (s.tick c now).1.clocks = c.dueClocks now := by
  rw [tick_eq]
  rfl

/-- A tick reports the changes of a pass over the circuit with its clocks toggled. -/
theorem changed_tick (s : Simulator) (c : Circuit) (now : Float) :
    (s.tick c now).1.changed = (s.evaluate (c.toggleClocks now)).1 := by
  rw [tick_eq, ← (s.evaluate_atTime _ now).1]
  rfl

/-- A tick leaves what a pass over the circuit with its clocks toggled leaves. -/
theorem circuit_tick (s : Simulator) (c : Circuit) (now : Float) :
    (s.tick c now).2.2 = (s.evaluate (c.toggleClocks now)).2.2 := by
  rw [tick_eq, ← (s.evaluate_atTime _ now).2]
  rfl

end Simulator

namespace Circuit

variable {c : Circuit} {id : ComponentId} {now : Float}

/-- What a tick leaves of each component. -/
theorem exists_ticked (s : Simulator) {x : Component} (hx : c.component? id = some x) :
    ∃ y, (s.tick c now).2.2.component? id = some y ∧ x.Ticked now y := by
  have hpass := bind_component?_evaluate (f := fun x => some x.kept)
    (fun x bits => congrArg some (x.kept_evaluate bits)) s (c.toggleClocks now) id
  rw [component?_toggleClocks, hx, Option.map_some, Option.bind_some] at hpass
  obtain ⟨y, hy, hyx⟩ := Option.bind_eq_some_iff.1 hpass
  exact ⟨y, s.circuit_tick c now ▸ hy, Component.ticked_of_kept (Option.some.inj hyx)⟩

end Circuit

/-- A tick touches nothing but clocks and computed values. For every circuit, every simulator,
also one of another circuit, and every time: names, wires, the revision and the number of the
latest name stay; each component keeps its label, its place and its slots and is what it was;
sources that are no clocks keep their state; and a clock has its level flipped and this time as
that of its last toggle exactly if it was due, keeps its frequency, runs if it ran and stays as it
was if it was not due. The clocks that toggled are reported by name, each once. They may toggle in
any order. All outputs after the tick, and the report of what changed, are those of a pass over
the circuit with its clocks toggled. -/
theorem tick_moves_due_clocks (c : Circuit) (s : Simulator) (now : Float) :
    let report := (s.tick c now).1
    let after := (s.tick c now).2.2
    (after.ids = c.ids ∧ after.wires = c.wires ∧ after.revision = c.revision ∧
      after.lastNumber = c.lastNumber) ∧
    (∀ id x, c.component? id = some x → ∃ y, after.component? id = some y ∧ x.Ticked now y) ∧
    report.clocks.Pairwise (· < ·) ∧
    (∀ id, id ∈ report.clocks ↔ ∃ x timing level, c.component? id = some x ∧
      x.kind = .source ⟨.clock timing, level⟩ ∧ timing.isDue now = true) ∧
    ∀ order, order.Perm c.ids →
      let toggled := Circuit.toggleInTurn now order c
      toggled.1.Perm report.clocks ∧ report.changed = (s.evaluate toggled.2).1 ∧
        after = (s.evaluate toggled.2).2.2 := by
  intro report after
  have hframe : after.frame = c.frame := Circuit.frame_tick s c now
  have hclocks : report.clocks = c.dueClocks now := s.clocks_tick c now
  refine ⟨⟨Circuit.ids_of_frame hframe, Circuit.wires_of_frame hframe,
    Circuit.revision_of_frame hframe, congrArg Circuit.Frame.lastNumber hframe⟩,
    fun id x hx => Circuit.exists_ticked s hx, hclocks ▸ c.pairwise_dueClocks now, fun id => ?_,
    fun order horder => ?_⟩
  · rw [hclocks]
    exact Circuit.mem_dueClocks_iff
  · intro toggled
    obtain ⟨hnoted, htoggled⟩ : toggled.1.Perm (c.dueClocks now) ∧
        toggled.2 = c.toggleClocks now := Circuit.toggleInTurn_eq horder
    rw [htoggled, hclocks]
    exact ⟨hnoted, s.changed_tick c now, s.circuit_tick c now⟩

end LogicCircuit
