import LogicCircuit.Proofs.Circuit.Wiring
import LogicCircuit.Table.Basic

/-!
# What settings and evaluations leave alone

Setting a switch, toggling a clock, a pass of the simulator and a whole truth table change the
state of components: levels, outputs, clocks, histories, labels and places. The frame of a circuit
is all the rest, the state blanked out. Each of these operations keeps the frame (`frame_modify`,
`frame_evaluateAll`, `frame_tick`, `frame_tabulate`), and circuits with the same frame have the
same graphs and the same order of evaluation and are well wired together.

What a kind looks like with its state blanked out is written down without any of the operations
that clear it. That a reset leaves a sink blank is a lemma, `Sink.reset_eq_blank`.
-/

namespace LogicCircuit

/-- The kind of a source, with a clock as new. -/
def SourceKind.blank : SourceKind → SourceKind
  | clock _ => clock .initial
  | k => k

/-- The source at level zero, with a clock as new. -/
def Source.blank (s : Source) : Source := ⟨s.kind.blank, false⟩

/-- The kind of a sink, with a probe that remembers nothing. -/
def SinkKind.blank : SinkKind → SinkKind
  | probe _ => probe []
  | k => k

/-- The sink with nothing remembered and as many bits, none of them set. -/
def Sink.blank (s : Sink) : Sink := ⟨s.kind.blank, List.replicate s.bits.length false⟩

/-- The kind with its state blanked out. -/
def Kind.blank : Kind → Kind
  | gate g => gate g
  | source s => source s.blank
  | sink s => sink s.blank

/-- A component without its state, its label and its place. -/
structure Component.Frame where
  /-- Its name. -/
  id : ComponentId
  /-- The wires on its slots. -/
  slots : List (Option WireId)
  /-- What it is, blanked out. -/
  kind : Kind

/-- The frame of a component. -/
def Component.frame (x : Component) : Component.Frame := ⟨x.id, x.slots, x.kind.blank⟩

/-- A circuit without the state of its components. -/
structure Circuit.Frame where
  /-- The frames of the components, by name. -/
  components : List Component.Frame
  /-- The wires. -/
  wires : Roster Wire.id
  /-- The number that the latest generated name ends with. -/
  lastNumber : Nat
  /-- The number of changes of the topology. -/
  revision : Nat

/-- The frame of a circuit. -/
def Circuit.frame (c : Circuit) : Circuit.Frame :=
  ⟨c.components.entries.map (·.frame), c.wires, c.lastNumber, c.revision⟩

namespace Source

@[simp] theorem blank_setLevel (s : Source) (level : Bool) :
    (s.setLevel level).blank = s.blank := by
  obtain ⟨kind, _⟩ := s
  cases kind <;> rfl

@[simp] theorem blank_mapClock (s : Source) (change : Clock → Clock) :
    (s.mapClock change).blank = s.blank := by
  obtain ⟨kind, _⟩ := s
  cases kind <;> rfl

@[simp] theorem blank_flip (s : Source) : (Circuit.flip s).blank = s.blank := by
  unfold Circuit.flip
  split <;> simp

@[simp] theorem blank_toggleAt (s : Source) (now : Float) : (s.toggleAt now).blank = s.blank := by
  simp [toggleAt]

@[simp] theorem blank_reset (s : Source) (now : Float) : (s.reset now).blank = s.blank := by
  simp [reset]

end Source

namespace Sink

/-- Arriving bits take the place of as many as there are. -/
@[simp] theorem length_overwrite (old new : List Bool) :
    (overwrite old new).length = old.length := by
  induction old generalizing new with
  | nil => cases new <;> rfl
  | cons b old ih =>
      cases new with
      | nil => rfl
      | cons a new => simp [overwrite, ih]

/-- What arrives at a sink does not show in the blank one. -/
@[simp] theorem blank_receive (s : Sink) (inputs : List Bool) :
    (s.receive inputs).blank = s.blank := by
  obtain ⟨kind, bits⟩ := s
  have hkind : ∀ b, (kind.remember b).blank = kind.blank := fun b => by cases kind <;> rfl
  simp [blank, receive, hkind]

/-- A reset leaves a blank sink: it clears every bit and all that a probe remembers. -/
theorem reset_eq_blank (s : Sink) : s.reset = s.blank := by
  obtain ⟨kind, bits⟩ := s
  have hkind : kind.forget = kind.blank := by cases kind <;> rfl
  rw [reset, blank, hkind, List.map_const']

@[simp] theorem blank_reset (s : Sink) : s.reset.blank = s.blank := by
  obtain ⟨kind, bits⟩ := s
  have hkind : kind.blank.blank = kind.blank := by cases kind <;> rfl
  simp [reset_eq_blank, blank, hkind]

end Sink

namespace Kind

/-- A change of the state of a source does not show in a blank kind. -/
theorem blank_mapSource (k : Kind) {change : Source → Source}
    (h : ∀ s, (change s).blank = s.blank) : (k.mapSource change).blank = k.blank := by
  cases k with
  | source s => exact congrArg source (h s)
  | gate g => rfl
  | sink s => rfl

/-- Kinds that are blank alike have as many inputs. -/
theorem arity_eq_of_blank {k l : Kind} (h : k.blank = l.blank) : k.arity = l.arity := by
  have harity : ∀ s : SinkKind, s.blank.arity = s.arity := fun s => by cases s <;> rfl
  cases k <;> cases l <;>
    simp only [blank, gate.injEq, source.injEq, sink.injEq, reduceCtorEq] at h
  case gate.gate g g' => exact congrArg Gate.arity h
  case source.source => rfl
  case sink.sink s t =>
    have hkind := congrArg (fun s : Sink => s.kind.arity) h
    simpa only [Sink.blank, harity, arity] using hkind

/-- What is a gate without its state is the gate. -/
theorem blank_eq_gate {k : Kind} {g : Gate} (h : k.blank = .gate g) : k = .gate g := by
  cases k with
  | gate g' => exact h
  | source s => cases h
  | sink s => cases h

/-- Kinds that are blank alike are both sinks or neither is. -/
theorem isSink_eq_of_blank {k l : Kind} (h : k.blank = l.blank) : k.isSink = l.isSink := by
  cases k <;> cases l <;> simp_all [blank, isSink]

end Kind

namespace Component

/-- Components with the same frame are well formed together. -/
theorem WellFormed.of_frame {x y : Component} (h : x.WellFormed) (hframe : y.frame = x.frame) :
    y.WellFormed := by
  obtain ⟨_, hslots, hkind⟩ := Frame.mk.inj hframe
  have harity := Kind.arity_eq_of_blank hkind
  refine ⟨by rw [hslots, h.slots, harity], fun t ht => ?_⟩
  have hsink : t.kind.arity = x.kind.arity := by rw [← harity, ht]; rfl
  cases hx : x.kind with
  | gate g => simp [ht, hx, Kind.blank] at hkind
  | source s => simp [ht, hx, Kind.blank] at hkind
  | sink s =>
      simp only [ht, hx, Kind.blank, Kind.sink.injEq] at hkind
      have hbits := congrArg (fun s : Sink => s.bits.length) hkind
      simp only [Sink.blank, List.length_replicate] at hbits
      rw [hbits, h.bits s hx, hsink, hx]
      rfl

@[simp] theorem frame_evaluate (x : Component) (inputs : List Bool) :
    (x.evaluate inputs).frame = x.frame := by
  unfold evaluate
  cases hk : x.kind with
  | gate g => simp [frame, hk]
  | source s => simp [frame, hk]
  | sink s => simp [frame, hk, Kind.blank]

@[simp] theorem frame_reset (x : Component) (now : Float) : (x.reset now).frame = x.frame := by
  unfold reset
  cases hk : x.kind with
  | gate g => simp [frame, hk]
  | source s => simp [frame, hk, Kind.blank]
  | sink s => simp [frame, hk, Kind.blank]

@[simp] theorem frame_toggleDue (x : Component) (now : Float) :
    (Circuit.toggleDue now x).frame = x.frame := by
  have hblank : ∀ s : Source, (if s.isDue now then s.toggleAt now else s).blank = s.blank := by
    intro s
    split <;> simp
  simp only [frame, Circuit.toggleDue, Kind.blank_mapSource x.kind hblank]

end Component

namespace Circuit

variable {c d : Circuit}

/-! ## Settings -/

/-- What a look-up finds after one component was changed. -/
theorem component?_modify (c : Circuit) (id : ComponentId) (change : Component → Component)
    (keeps : ∀ x, (change x).id = x.id) (a : ComponentId) :
    (c.modify id change keeps).component? a =
      if a = id then (c.component? a).map change else c.component? a :=
  Roster.get?_modify c.components id change keeps a

/-- Changing components within their frames keeps the frame of the circuit. -/
theorem frame_map (c : Circuit) (change : Component → Component)
    (keeps : ∀ x, (change x).id = x.id) (h : ∀ x, (change x).frame = x.frame) :
    ({ c with components := c.components.map change keeps } : Circuit).frame = c.frame := by
  simp [frame, Roster.map, h]

/-- Changing one component within its frame keeps the frame of the circuit. -/
theorem frame_modify (c : Circuit) (id : ComponentId) (change : Component → Component)
    (keeps : ∀ x, (change x).id = x.id) (h : ∀ x, (change x).frame = x.frame) :
    (c.modify id change keeps).frame = c.frame :=
  frame_map c _ _ fun x => by split <;> simp [h]

/-- Changing the state of a source keeps the frame. -/
theorem frame_modifySource {id : ComponentId} {fits : Source → Bool} {change : Source → Source}
    (h : ∀ s, (change s).blank = s.blank) (hd : c.modifySource? id fits change = some d) :
    d.frame = c.frame := by
  unfold modifySource? at hd
  split at hd
  · split at hd
    · obtain rfl := Option.some.inj hd
      exact frame_modify c id _ _ fun x => by
        simp [Component.frame, Kind.blank_mapSource x.kind h]
    · cases hd
  · cases hd

theorem frame_setLevel {id : ComponentId} {level : Bool} (hd : c.setLevel? id level = some d) :
    d.frame = c.frame :=
  frame_modifySource (by simp) hd

theorem frame_setLabel {id : ComponentId} {label : Option String}
    (hd : c.setLabel? id label = some d) : d.frame = c.frame := by
  obtain ⟨_, _, rfl⟩ := Option.map_eq_some_iff.1 hd
  exact frame_modify c id _ _ fun _ => rfl

theorem frame_move {id : ComponentId} {dx dy : Float} (hd : c.move? id dx dy = some d) :
    d.frame = c.frame := by
  obtain ⟨_, _, rfl⟩ := Option.map_eq_some_iff.1 hd
  exact frame_modify c id _ _ fun _ => rfl

/-! ## Simulation -/

/-- What a pass leaves behind: the components evaluated in turn. -/
theorem evaluateAll_snd (ids : List ComponentId) (c : Circuit) :
    (c.evaluateAll ids).2 = ids.foldl evaluateOne c := by
  induction ids generalizing c with
  | nil => rfl
  | cons id ids ih =>
      have hrest := ih (c.evaluateOne id)
      unfold evaluateAll
      dsimp only
      split
      · split <;> exact hrest
      · exact hrest

theorem frame_evaluateOne (c : Circuit) (id : ComponentId) : (c.evaluateOne id).frame = c.frame :=
  frame_modify c id _ _ fun x => Component.frame_evaluate x _

/-- A pass keeps the frame. -/
theorem frame_evaluateAll (ids : List ComponentId) (c : Circuit) :
    (c.evaluateAll ids).2.frame = c.frame := by
  rw [evaluateAll_snd]
  induction ids generalizing c with
  | nil => rfl
  | cons id ids ih => exact (ih (c.evaluateOne id)).trans (frame_evaluateOne c id)

theorem frame_evaluate (s : Simulator) (c : Circuit) : (s.evaluate c).2.2.frame = c.frame :=
  frame_evaluateAll _ c

theorem frame_toggleClocks (c : Circuit) (now : Float) : (c.toggleClocks now).frame = c.frame :=
  frame_map c _ _ fun x => Component.frame_toggleDue x now

/-- A tick keeps the frame. -/
theorem frame_tick (s : Simulator) (c : Circuit) (now : Float) :
    (s.tick c now).2.2.frame = c.frame := by
  have hpass := (frame_evaluate { s with lastTime := now } (c.toggleClocks now)).trans
    (frame_toggleClocks c now)
  unfold Simulator.tick
  dsimp only
  split <;> exact hpass

theorem frame_reset (c : Circuit) (now : Float) : (c.reset now).frame = c.frame :=
  frame_map c _ _ fun x => Component.frame_reset x now

theorem frame_setLevels (c : Circuit) (levels : List (ComponentId × Bool)) :
    (c.setLevels levels).frame = c.frame := by
  unfold setLevels
  induction levels generalizing c with
  | nil => rfl
  | cons l levels ih =>
      rw [List.foldl_cons, ih]
      cases hd : c.setLevel? l.1 l.2 with
      | none => rfl
      | some d => exact frame_setLevel hd

theorem frame_tableRows (inputs outputs : List ComponentId) (rows : List Nat) (s : Simulator)
    (c : Circuit) : (tableRows inputs outputs rows s c).2.frame = c.frame := by
  induction rows generalizing s c with
  | nil => rfl
  | cons row rows ih =>
      unfold tableRows
      exact (ih _ _).trans ((frame_evaluate _ _).trans (frame_setLevels c _))

/-- A truth table keeps the frame. -/
theorem frame_tabulate (c : Circuit) : c.tabulate.2.frame = c.frame := by
  unfold tabulate
  dsimp only
  split
  · rfl
  · exact frame_tableRows _ _ _ _ c

/-! ## What the frame decides -/

/-- Circuits with the same frame look up components with the same frame. -/
theorem frame_component? (h : d.frame = c.frame) (id : ComponentId) :
    (d.component? id).map (·.frame) = (c.component? id).map (·.frame) := by
  have hlook : ∀ c : Circuit, (c.component? id).map (·.frame) =
      c.frame.components.find? fun x => x.id == id := fun c => by
    rw [frame, List.find?_map]
    rfl
  rw [hlook, hlook, h]

/-- A component of one circuit is found, with its frame, in any other of the same frame. -/
theorem component?_of_frame (h : d.frame = c.frame) {id : ComponentId} {y : Component}
    (hy : d.component? id = some y) : ∃ x, c.component? id = some x ∧ y.frame = x.frame := by
  have hmap := frame_component? h id
  rw [hy, eq_comm, Option.map_some, Option.map_eq_some_iff] at hmap
  obtain ⟨x, hx, hframe⟩ := hmap
  exact ⟨x, hx, hframe.symm⟩

theorem component?_eq_none_of_frame (h : d.frame = c.frame) {id : ComponentId}
    (hc : c.component? id = none) : d.component? id = none := by
  have hmap := frame_component? h id
  rwa [hc, Option.map_none, Option.map_eq_none_iff] at hmap

theorem wires_of_frame (h : d.frame = c.frame) : d.wires = c.wires := congrArg Frame.wires h

/-- Circuits with the same frame and the same components are the same. -/
theorem eq_of_component? (h : d.frame = c.frame)
    (hlook : ∀ id, d.component? id = c.component? id) : d = c := by
  obtain ⟨-, hwires, hnumber, hrevision⟩ := Frame.mk.inj h
  have hcomponents : d.components = c.components := Roster.ext_get? hlook
  calc d = ⟨d.components, d.wires, d.lastNumber, d.revision⟩ := rfl
    _ = ⟨c.components, c.wires, c.lastNumber, c.revision⟩ := by
        rw [hcomponents, hwires, hnumber, hrevision]

/-- Circuits with the same frame have the same names. -/
theorem ids_of_frame (h : d.frame = c.frame) : d.ids = c.ids := by
  have hids : ∀ c : Circuit, c.ids = c.frame.components.map (·.id) := fun c => by
    rw [frame, List.map_map]
    rfl
  rw [hids, hids, h]

/-- Circuits with the same frame have the same sinks. -/
theorem sinks_of_frame (h : d.frame = c.frame) :
    d.sinks.map (·.id) = c.sinks.map (·.id) := by
  have hsinks : ∀ c : Circuit, c.sinks.map (·.id) =
      (c.frame.components.filter (·.kind.isSink)).map (·.id) := fun c => by
    have hkind : ∀ x : Component, x.frame.kind.isSink = x.kind.isSink := fun x => by
      cases hk : x.kind <;> simp [Component.frame, hk, Kind.blank, Kind.isSink]
    simp only [sinks, frame, List.filter_map, List.map_map, Function.comp_def, hkind]
    rfl
  rw [hsinks, hsinks, h]

/-- Circuits with the same frame have the same drivers on each slot. -/
theorem driversOf_of_frame (h : d.frame = c.frame) : d.driversOf = c.driversOf := by
  have hwire : d.wire? = c.wire? := funext fun k => congrArg (·.get? k) (wires_of_frame h)
  have hdriver : d.driver? = c.driver? := funext fun slot => by rw [driver?, hwire]; rfl
  funext id
  unfold driversOf
  cases hy : d.component? id with
  | none =>
      have hx : c.component? id = none := component?_eq_none_of_frame h.symm hy
      rw [hx]
  | some y =>
      obtain ⟨x, hx, hxy⟩ := component?_of_frame h hy
      rw [hx]
      simp only [(Component.Frame.mk.inj hxy).2.1, hdriver]

/-- Circuits with the same frame have the same graph of drivers. -/
theorem driverGraph_of_frame (h : d.frame = c.frame) : d.driverGraph = c.driverGraph := by
  simp only [driverGraph, ids_of_frame h, driversOf_of_frame h]

/-- Circuits with the same frame have the same graph of readers. -/
theorem readerGraph_of_frame (h : d.frame = c.frame) : d.readerGraph = c.readerGraph := by
  have hfanout : d.fanout = c.fanout := by
    funext id
    simp only [fanout, wires_of_frame h]
  simp only [readerGraph, ids_of_frame h, hfanout]

/-- Circuits with the same frame are evaluated in the same order. -/
theorem evaluationOrder_of_frame (h : d.frame = c.frame) :
    d.evaluationOrder = c.evaluationOrder := by
  simp only [evaluationOrder, driverGraph_of_frame h, sinks_of_frame h, ids_of_frame h]

/-- Circuits with the same frame are well wired together. -/
theorem WellWired.of_frame (h : c.WellWired) (hframe : d.frame = c.frame) : d.WellWired := by
  have hwire : ∀ k, d.wire? k = c.wire? k := fun k => by rw [wire?, wires_of_frame hframe]; rfl
  refine ⟨fun hy => ?_, fun hw => ?_, fun hw => ?_, fun hw => ?_, fun hy hslot => ?_⟩
  · obtain ⟨x, hx, hxy⟩ := component?_of_frame hframe hy
    exact (h.formed hx).of_frame hxy
  · obtain ⟨s, hs, hout⟩ := h.source (hwire _ ▸ hw)
    obtain ⟨s', hs', hss⟩ := component?_of_frame hframe.symm hs
    exact ⟨s', hs', Kind.isSink_eq_of_blank (Component.Frame.mk.inj hss).2.2 ▸ hout⟩
  · obtain ⟨t, ht, hslot⟩ := h.target (hwire _ ▸ hw)
    obtain ⟨t', ht', htt⟩ := component?_of_frame hframe.symm ht
    exact ⟨t', ht', (Component.Frame.mk.inj htt).2.1 ▸ hslot⟩
  · exact h.distinct (hwire _ ▸ hw)
  · obtain ⟨x, hx, hxy⟩ := component?_of_frame hframe hy
    obtain ⟨w, hw, hend⟩ := h.slot hx ((Component.Frame.mk.inj hxy).2.1 ▸ hslot)
    exact ⟨w, (hwire _).trans hw, hend⟩

end Circuit

end LogicCircuit
