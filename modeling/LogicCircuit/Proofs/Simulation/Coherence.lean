import LogicCircuit.Proofs.Simulation.Denotation

/-!
# The order that a simulator keeps

A simulator keeps an order of evaluation together with the revision of the circuit that it was
made for, and compares nothing but that number. This is sound because a number never comes back:
an edit either leaves the frame of the circuit, and with it the order, as it is or raises the
revision (`Change.frame_eq_or_revision_lt`). `Session` is a simulator and a circuit that are used
together, and `Session.Coherent` is the invariant of all its runs: the revision that the simulator
knows is not one that is still to come, and if it is that of the circuit, the order is that of the
circuit.
-/

namespace LogicCircuit

variable {c d : Circuit} {s : Simulator}

namespace Circuit

/-! ## Revisions -/

theorem revision_of_frame (h : d.frame = c.frame) : d.revision = c.revision :=
  congrArg Frame.revision h

/-- Removing a wire raises the revision unless there is no such wire. -/
theorem disconnect_eq_or_revision_lt (c : Circuit) (k : WireId) :
    c.disconnect k = c ∨ c.revision < (c.disconnect k).revision := by
  unfold disconnect disconnect?
  cases c.wire? k with
  | none => exact .inl rfl
  | some w => exact .inr (Nat.lt_succ_self _)

theorem revision_le_disconnect (c : Circuit) (k : WireId) :
    c.revision ≤ (c.disconnect k).revision := by
  rcases c.disconnect_eq_or_revision_lt k with heq | hlt
  · rw [heq]
  · exact Nat.le_of_lt hlt

theorem revision_le_disconnectAll (c : Circuit) (ks : List WireId) :
    c.revision ≤ (ks.foldl disconnect c).revision := by
  induction ks generalizing c with
  | nil => exact Nat.le_refl _
  | cons k ks ih => exact (c.revision_le_disconnect k).trans (ih (c.disconnect k))

/-- Removing a component raises the revision unless there is no such component. -/
theorem remove_eq_or_revision_lt (c : Circuit) (id : ComponentId) :
    c.remove id = c ∨ c.revision < (c.remove id).revision := by
  unfold remove remove?
  split
  · exact .inr (Nat.lt_succ_of_le (c.revision_le_disconnectAll (c.incident id)))
  · exact .inl rfl

theorem revision_le_remove (c : Circuit) (id : ComponentId) :
    c.revision ≤ (c.remove id).revision := by
  rcases c.remove_eq_or_revision_lt id with heq | hlt
  · rw [heq]
  · exact Nat.le_of_lt hlt

/-- Adding a component raises the revision, also when another one gives way. -/
theorem revision_lt_add (c : Circuit) (x : Component) : c.revision < (c.add x).2.revision := by
  unfold add
  split
  · exact Nat.lt_succ_self _
  · exact Nat.lt_succ_of_le (c.revision_le_remove x.id)

/-- Adding a wire raises the revision, also when another one gives way. -/
theorem revision_lt_wireUp {loopsAllowed : Bool} {source target : ComponentId} {slot : Nat}
    {k : WireId} (hd : c.wireUp loopsAllowed source target slot = .ok (k, d)) :
    c.revision < d.revision := by
  obtain ⟨-, rfl⟩ := wireUp_eq_ok hd
  have hfree : c.revision ≤ (c.free target slot).revision := by
    rcases free_cases c target slot with ⟨_, j, _, _, hfree⟩ | ⟨_, hfree⟩ <;> rw [hfree]
    exact c.revision_le_disconnect j
  exact Nat.lt_succ_of_le hfree

end Circuit

/-- A change keeps the frame or raises the revision. -/
theorem Change.frame_eq_or_revision_lt {loopsAllowed : Bool} (h : Change loopsAllowed c d) :
    d.frame = c.frame ∨ c.revision < d.revision := by
  cases h with
  | state hframe => exact .inl hframe
  | @add x _ => exact .inr (c.revision_lt_add x)
  | remove id => exact (c.remove_eq_or_revision_lt id).imp_left (congrArg Circuit.frame)
  | disconnect k => exact (c.disconnect_eq_or_revision_lt k).imp_left (congrArg Circuit.frame)
  | clear => exact .inr (Nat.lt_succ_self _)
  | wireUp hd => exact .inr (Circuit.revision_lt_wireUp hd)

/-! ## Sessions -/

/-- A simulator and a circuit that it is used on. -/
structure Session where
  /-- The simulator. -/
  simulator : Simulator
  /-- The circuit. -/
  circuit : Circuit

/-- Something that is done to a circuit or with the simulator that it is used with. -/
inductive Event where
  /-- An operation on the circuit, which may be refused. -/
  | edit (e : Edit)
  /-- The simulator is asked for the order. -/
  | order
  /-- The simulator makes one pass. -/
  | evaluate
  /-- The simulator goes on to a time. -/
  | tick (now : Float)
  /-- The simulator goes on by the time of one step. -/
  | step
  /-- The simulator brings the circuit back to its initial state. -/
  | reset
  /-- A component is traced, which only reads. -/
  | trace (id : ComponentId)

namespace Session

/-- The session after an event. -/
def perform (t : Session) : Event → Session
  | .edit e => { t with circuit := e.apply t.circuit }
  | .order => { t with simulator := t.simulator.refresh t.circuit }
  | .evaluate => let (_, s, c) := t.simulator.evaluate t.circuit; ⟨s, c⟩
  | .tick now => let (_, s, c) := t.simulator.tick t.circuit now; ⟨s, c⟩
  | .step => let (_, s, c) := t.simulator.step t.circuit; ⟨s, c⟩
  | .reset => let (s, c) := t.simulator.reset t.circuit; ⟨s, c⟩
  | .trace _ => t

/-- The session after several events. -/
def performAll (events : List Event) (t : Session) : Session := events.foldl perform t

/-- The simulator knows no revision that is still to come, and the order that it keeps for the
present revision is that of the circuit. -/
structure Coherent (t : Session) : Prop where
  /-- The circuit is well wired. -/
  wired : t.circuit.WellWired
  /-- A revision that the simulator knows has been reached. -/
  reached : ∀ n, t.simulator.revision = some n → n ≤ t.circuit.revision
  /-- The order belongs to the circuit. -/
  belongs : t.simulator.BelongsTo t.circuit

/-- A new simulator knows no revision. -/
theorem Coherent.new (hc : c.WellWired) (settings : Settings) :
    Coherent ⟨.ofSettings settings, c⟩ :=
  ⟨hc, fun _ h => (nomatch h), fun h => (nomatch h)⟩

/-- A simulator may stay as it is while the circuit changes. -/
theorem Coherent.change (h : Coherent ⟨s, c⟩) (hd : d.WellWired)
    (hchange : d.frame = c.frame ∨ c.revision < d.revision) : Coherent ⟨s, d⟩ := by
  rcases hchange with hframe | hlt
  · refine ⟨hd, fun n hn => ?_, h.belongs.of_frame hframe⟩
    exact (h.reached n hn).trans_eq (Circuit.revision_of_frame hframe).symm
  · refine ⟨hd, fun n hn => (h.reached n hn).trans (Nat.le_of_lt hlt), fun hn => ?_⟩
    -- the present revision is one that the simulator cannot know yet
    exact absurd (h.reached _ hn) (Nat.not_le_of_lt hlt)

/-- A simulator that has just been refreshed keeps the order of the circuit. -/
theorem Coherent.refreshed (h : Coherent ⟨s, c⟩) (hframe : d.frame = c.frame) {s' : Simulator}
    (horder : s'.order = (s.refresh d).order) (hrevision : s'.revision = some d.revision) :
    Coherent ⟨s', d⟩ := by
  refine ⟨h.wired.of_frame hframe, fun n hn => ?_, fun _ => ?_⟩
  · rw [hrevision, Option.some.injEq] at hn
    exact Nat.le_of_eq hn.symm
  · rw [horder, h.belongs.order_refresh hframe, Circuit.evaluationOrder_of_frame hframe]

end Session

namespace Simulator

/-- A refreshed simulator knows the revision of the circuit. -/
theorem revision_refresh (s : Simulator) (c : Circuit) :
    (s.refresh c).revision = some c.revision := by
  unfold refresh
  split
  · assumption
  · rfl

/-- A tick leaves the simulator with the order that it was refreshed with. -/
theorem tick_refresh (s : Simulator) (c : Circuit) (now : Float) :
    (s.tick c now).2.1.order = ({ s with lastTime := now }.refresh (c.toggleClocks now)).order ∧
      (s.tick c now).2.1.revision = some (c.toggleClocks now).revision := by
  have hrevision := revision_refresh { s with lastTime := now } (c.toggleClocks now)
  unfold tick
  dsimp only
  split <;> exact ⟨rfl, hrevision⟩

/-- The simulator with the order of a circuit computed anew. -/
def anew (s : Simulator) (c : Circuit) : Simulator := { s with order := c.evaluationOrder }

/-- It makes no difference if the order is computed anew before it is asked for. -/
theorem BelongsTo.refresh_anew (h : s.BelongsTo c) (hframe : d.frame = c.frame) :
    (s.anew c).refresh d = s.refresh d := by
  have hrevision := Circuit.revision_of_frame hframe
  by_cases hsame : s.revision = some d.revision
  · have hanew : s.anew c = s := by rw [anew, ← h (hrevision ▸ hsame)]
    rw [hanew]
  · simp only [refresh, anew, hsame, if_false]

theorem BelongsTo.evaluate_anew (h : s.BelongsTo c) (hframe : d.frame = c.frame) :
    (s.anew c).evaluate d = s.evaluate d := by
  rw [evaluate, evaluate, h.refresh_anew hframe]

/-- A tick refreshes the simulator after the clocks have toggled, which the order does not see. -/
theorem BelongsTo.tick_anew (h : s.BelongsTo c) (now : Float) :
    (s.anew c).tick c now = s.tick c now := by
  have htimed : ({ s with lastTime := now } : Simulator).BelongsTo c := h
  have hpass : ({ s.anew c with lastTime := now } : Simulator).evaluate (c.toggleClocks now) =
      ({ s with lastTime := now } : Simulator).evaluate (c.toggleClocks now) :=
    htimed.evaluate_anew (c.frame_toggleClocks now)
  unfold tick
  rw [hpass]

/-- A simulator that belongs to a circuit makes its passes in the order of evaluation. -/
theorem BelongsTo.evaluate_eq (h : s.BelongsTo c) :
    (s.evaluate c).1 = (c.evaluateAll c.evaluationOrder.closed).1 ∧
      (s.evaluate c).2.2 = (c.evaluateAll c.evaluationOrder.closed).2 := by
  rw [← h.order_refresh rfl]
  exact ⟨rfl, rfl⟩

end Simulator

namespace Session

/-- Every event keeps a session coherent. -/
theorem Coherent.perform {t : Session} (h : t.Coherent) (event : Event) :
    (t.perform event).Coherent := by
  obtain ⟨s, c⟩ := t
  have htick : ∀ now, Coherent ⟨(s.tick c now).2.1, (s.tick c now).2.2⟩ := by
    intro now
    obtain ⟨horder, hrevision⟩ := s.tick_refresh c now
    have htimed : Coherent ⟨{ s with lastTime := now }, c⟩ := ⟨h.wired, h.reached, h.belongs⟩
    have htoggled := htimed.refreshed (c.frame_toggleClocks now) horder hrevision
    have hframe := (Circuit.frame_tick s c now).trans (c.frame_toggleClocks now).symm
    exact htoggled.change (htoggled.wired.of_frame hframe) (.inl hframe)
  cases event with
  | edit e =>
      have hchange := e.change h.wired
      exact h.change (hchange.wellWired h.wired) hchange.frame_eq_or_revision_lt
  | order => exact h.refreshed rfl rfl (s.revision_refresh c)
  | evaluate =>
      have hpass : Coherent ⟨(s.evaluate c).2.1, c⟩ := h.refreshed rfl rfl (s.revision_refresh c)
      have hframe := Circuit.frame_evaluate s c
      exact hpass.change (h.wired.of_frame hframe) (.inl hframe)
  | tick now => exact htick now
  | step => exact htick _
  | reset =>
      have hframe := c.frame_reset s.lastTime
      exact ⟨h.wired.of_frame hframe, fun n hn => (nomatch hn), fun hn => (nomatch hn)⟩
  | trace id => exact h

/-- A session that starts with a new simulator stays coherent. -/
theorem coherent_performAll {t : Session} (h : t.Coherent) (events : List Event) :
    (performAll events t).Coherent := by
  induction events generalizing t with
  | nil => exact h
  | cons event events ih => exact ih (h.perform event)

end Session

/-- The order that a simulator keeps is current. After any events of a session of a new simulator
and a circuit, new or not: if the simulator keeps an order for the revision of the circuit, it is
the order of evaluation of the circuit. So a request for the order, a pass, a tick and a step do
what they would do if the order were computed anew before, and a pass goes through that order. -/
theorem kept_order_is_current (h : c.Reachable) (settings : Settings) (events : List Event) :
    let t := Session.performAll events ⟨.ofSettings settings, c⟩
    let anew := t.simulator.anew t.circuit
    (t.simulator.revision = some t.circuit.revision →
      t.simulator.order = t.circuit.evaluationOrder) ∧
    (t.simulator.refresh t.circuit).order = t.circuit.evaluationOrder ∧
    t.simulator.evaluate t.circuit = anew.evaluate t.circuit ∧
    (∀ now, t.simulator.tick t.circuit now = anew.tick t.circuit now) ∧
    t.simulator.step t.circuit = anew.step t.circuit ∧
    (t.simulator.evaluate t.circuit).1 =
      (t.circuit.evaluateAll t.circuit.evaluationOrder.closed).1 ∧
    (t.simulator.evaluate t.circuit).2.2 =
      (t.circuit.evaluateAll t.circuit.evaluationOrder.closed).2 := by
  intro t anew
  have hcoherent := Session.coherent_performAll (.new h.wellWired settings) events
  have hbelongs : t.simulator.BelongsTo t.circuit := hcoherent.belongs
  obtain ⟨hchanged, hleft⟩ := hbelongs.evaluate_eq
  exact ⟨hbelongs, hbelongs.order_refresh rfl, (hbelongs.evaluate_anew rfl).symm,
    fun now => (hbelongs.tick_anew now).symm, (hbelongs.tick_anew _).symm, hchanged, hleft⟩

/-- A simulator passes over the latch, a wire of the loop goes, an edit is refused, the simulator
is asked for the order and a switch is set: it knows the revision, and its order is current. -/
theorem kept_order_is_current_latch : latch.Reachable ∧
    let t := Session.performAll [.evaluate, .edit (.disconnect "connection-5"),
      .edit (.connect "p" "q" 2), .order, .edit (.setSwitch "set" false)] ⟨.new, latch⟩
    t.simulator.revision = some t.circuit.revision ∧ t.circuit.revision ≠ latch.revision ∧
      t.simulator.order = t.circuit.evaluationOrder := by
  have hreach : latch.Reachable := reachable_applyAll _
  refine ⟨hreach, ?_⟩
  intro t
  have hrevision : t.simulator.revision = some t.circuit.revision := by decide +kernel
  obtain ⟨hcurrent, _⟩ := kept_order_is_current hreach .standard
    [.evaluate, .edit (.disconnect "connection-5"), .edit (.connect "p" "q" 2), .order,
      .edit (.setSwitch "set" false)]
  exact ⟨hrevision, by decide +kernel, hcurrent hrevision⟩

end LogicCircuit
