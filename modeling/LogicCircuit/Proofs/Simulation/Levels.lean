import LogicCircuit.Proofs.Simulation.Denotation

/-!
# The levels that a value depends on

The value of a component depends on the wiring and on the levels of sources alone: circuits of one
frame whose sources are at the same levels agree on all values (`denote_eq_of_levels`). A pass
keeps the levels, and setting them one by one replaces them all at once
(`setLevels_eq_withLevels`). After a pass over a circuit without cycles each sink shows its value
(`WellWired.showsSet_evaluate`).
-/

namespace LogicCircuit

/-- The level of a source. -/
def Kind.level? (k : Kind) : Option Bool := k.source?.map (·.level)

/-- A component at a level puts it out. -/
theorem Kind.respond_of_level? {k : Kind} {on : Bool} (h : k.level? = some on)
    (bits : List Bool) : k.respond bits = on := by
  cases k with
  | source s => exact Option.some.inj h
  | gate g => cases h
  | sink s => cases h

/-- Kinds that are blank alike respond alike, sources as long as they are at the same level. -/
theorem Kind.respond_eq_of_blank {k l : Kind} (hblank : k.blank = l.blank)
    (hlevel : k.level? = l.level?) (bits : List Bool) : k.respond bits = l.respond bits := by
  have hshown : ∀ s : SinkKind, s.blank.shown bits = s.shown bits := fun s => by cases s <;> rfl
  cases k <;> cases l <;>
    simp only [blank, gate.injEq, source.injEq, sink.injEq, reduceCtorEq] at hblank
  case gate.gate g g' => rw [hblank]
  case source.source s t => exact Option.some.inj hlevel
  case sink.sink s t =>
    have hkinds : s.kind.blank = t.kind.blank := congrArg Sink.kind hblank
    show (s.kind.shown bits).isSet = (t.kind.shown bits).isSet
    rw [← hshown s.kind, hkinds, hshown t.kind]

namespace Component

/-- A source at another level; any other component as it is. -/
def atLevel (x : Component) (on : Bool) : Component :=
  { x with kind := x.kind.mapSource (·.setLevel on) }

theorem level?_atLevel (x : Component) (on : Bool) :
    (x.atLevel on).kind.level? = x.kind.level?.map fun _ => on := by
  unfold atLevel
  cases x.kind <;> rfl

theorem frame_atLevel (x : Component) (on : Bool) : (x.atLevel on).frame = x.frame := by
  simp only [frame, atLevel, Kind.blank_mapSource x.kind fun s => s.blank_setLevel on]

/-- What is no source has no level. -/
theorem atLevel_of_source? {x : Component} (h : x.kind.source? = none) (on : Bool) :
    x.atLevel on = x := by
  obtain ⟨_, kind, _⟩ := x
  cases kind with
  | source s => cases h
  | gate g => rfl
  | sink s => rfl

/-- The component at the level that a list has for it; without one it stays as it is. -/
def withLevel (levels : List (ComponentId × Bool)) (x : Component) : Component :=
  (levels.lookup x.id).elim x x.atLevel

theorem id_withLevel (levels : List (ComponentId × Bool)) (x : Component) :
    (x.withLevel levels).id = x.id := by
  unfold withLevel
  cases levels.lookup x.id <;> rfl

theorem frame_withLevel (levels : List (ComponentId × Bool)) (x : Component) :
    (x.withLevel levels).frame = x.frame := by
  unfold withLevel
  cases levels.lookup x.id with
  | none => rfl
  | some on => exact x.frame_atLevel on

theorem level?_evaluate (x : Component) (bits : List Bool) :
    (x.evaluate bits).kind.level? = x.kind.level? := by
  unfold evaluate
  cases hk : x.kind <;> simp [Kind.level?, Kind.source?]

theorem label_evaluate (x : Component) (bits : List Bool) :
    (x.evaluate bits).label = x.label := by
  unfold evaluate
  split <;> rfl

end Component

namespace Circuit

/-- The level of a source. -/
def level? (c : Circuit) (id : ComponentId) : Option Bool :=
  (c.component? id).bind (·.kind.level?)

/-- The label of a component. -/
def label? (c : Circuit) (id : ComponentId) : Option String := (c.component? id).bind (·.label)

/-- The circuit with the levels of some sources replaced. -/
def withLevels (c : Circuit) (levels : List (ComponentId × Bool)) : Circuit :=
  { c with components := c.components.map (·.withLevel levels) (Component.id_withLevel levels) }

variable {c d : Circuit} {id : ComponentId} {x : Component} {path : List ComponentId}
  {levels : List (ComponentId × Bool)}

/-! ## Values by levels -/

/-- A component that is open or does not exist reads as false. -/
theorem denoteBelow_eq_false (h : id ∈ path ∨ c.component? id = none) :
    c.denoteBelow path id = false := by
  rw [denoteBelow]
  split <;> simp_all

/-- The value of a source is its level. -/
theorem denote_of_level? {on : Bool} (hcone : c.AcyclicCone id) (h : c.level? id = some on) :
    c.denote id = on := by
  obtain ⟨x, hx, hlevel⟩ := Option.bind_eq_some_iff.1 h
  rw [denote_eq hcone hx, Kind.respond_of_level? hlevel]

/-- Circuits of one frame whose sources are at the same levels agree on all values, whatever
components are open. -/
theorem denoteBelow_eq_of_levels {path : List ComponentId} {id : ComponentId}
    (hframe : d.frame = c.frame) (hlevels : ∀ a, d.level? a = c.level? a) :
    d.denoteBelow path id = c.denoteBelow path id := by
  by_cases hopen : id ∈ path
  · rw [denoteBelow_eq_false (.inl hopen), denoteBelow_eq_false (.inl hopen)]
  cases hx : c.component? id with
  | none =>
      have hy : d.component? id = none := component?_eq_none_of_frame hframe hx
      rw [denoteBelow_eq_false (.inr hx), denoteBelow_eq_false (.inr hy)]
  | some x =>
      obtain ⟨y, hy, hxy⟩ := component?_of_frame hframe.symm hx
      have hlevel : y.kind.level? = x.kind.level? := by
        have hboth := hlevels id
        rwa [level?, level?, hx, hy] at hboth
      have hblank : y.kind.blank = x.kind.blank := (Component.Frame.mk.inj hxy).2.2.symm
      rw [denoteBelow_of_new hx hopen, denoteBelow_of_new hy hopen, driversOf_of_frame hframe,
        Kind.respond_eq_of_blank hblank hlevel]
      refine congrArg _ (List.map_congr_left fun driver _ => ?_)
      cases driver with
      | none => rfl
      | some a => exact denoteBelow_eq_of_levels hframe hlevels
termination_by Traversal.room c.driverGraph path
decreasing_by exact Traversal.room_cons_lt (mem_ids_of_component? hx) hopen

/-- Circuits of one frame whose sources are at the same levels agree on all values. -/
theorem denote_eq_of_levels (hframe : d.frame = c.frame)
    (hlevels : ∀ a, d.level? a = c.level? a) (id : ComponentId) : d.denote id = c.denote id :=
  denoteBelow_eq_of_levels hframe hlevels

/-- In circuits of one frame the same components have levels. -/
theorem isSome_level?_of_frame (hframe : d.frame = c.frame) (id : ComponentId) :
    (d.level? id).isSome = (c.level? id).isSome := by
  have hblank : ∀ k : Kind, k.level?.isSome = k.blank.level?.isSome := fun k => by
    cases k <;> rfl
  have hlook : ∀ c : Circuit, (c.level? id).isSome =
      (((c.component? id).map (·.frame)).bind (·.kind.level?)).isSome := fun c => by
    rw [level?]
    cases c.component? id with
    | none => rfl
    | some x => exact hblank x.kind
  rw [hlook, hlook, frame_component? hframe]

/-! ## Replacing levels -/

theorem frame_withLevels (c : Circuit) (levels : List (ComponentId × Bool)) :
    (c.withLevels levels).frame = c.frame :=
  frame_map c _ _ (Component.frame_withLevel levels)

theorem component?_withLevels (c : Circuit) (levels : List (ComponentId × Bool))
    (id : ComponentId) : (c.withLevels levels).component? id =
      (c.component? id).map fun x => (levels.lookup id).elim x x.atLevel := by
  refine (Roster.get?_map c.components _ (Component.id_withLevel levels) id).trans ?_
  refine Option.map_congr fun x hx => ?_
  rw [Component.withLevel, Roster.name_of_get? hx]

/-- A source whose level is replaced has the new level, and any other its own. -/
theorem level?_withLevels (c : Circuit) (levels : List (ComponentId × Bool)) (id : ComponentId) :
    (c.withLevels levels).level? id = (c.level? id).map fun on => (levels.lookup id).getD on := by
  rw [level?, level?, component?_withLevels]
  cases c.component? id with
  | none => rfl
  | some x =>
      cases levels.lookup id with
      | none => simp
      | some on => exact x.level?_atLevel on

theorem label?_withLevels (c : Circuit) (levels : List (ComponentId × Bool)) (id : ComponentId) :
    (c.withLevels levels).label? id = c.label? id := by
  rw [label?, label?, component?_withLevels]
  cases c.component? id with
  | none => rfl
  | some x => cases levels.lookup id <;> rfl

/-- A circuit that differs from another in its components alone, and finds them at some levels, is
the other circuit with these levels. -/
theorem eq_withLevels (hrest : { d with components := c.components } = c)
    (hlook : ∀ a, d.component? a =
      (c.component? a).map fun x => (levels.lookup a).elim x x.atLevel) :
    d = c.withLevels levels := by
  have hcomponents : d.components = (c.withLevels levels).components :=
    Roster.ext_get? fun a => (hlook a).trans (c.component?_withLevels levels a).symm
  calc d = { c with components := d.components } := by rw [← hrest]
    _ = c.withLevels levels := by rw [hcomponents]; rfl

/-- Setting the level of a component replaces it; nothing happens to one that is no source. -/
theorem setLevel_eq_withLevels (c : Circuit) (id : ComponentId) (on : Bool) :
    (c.setLevel? id on).getD c = c.withLevels [(id, on)] := by
  unfold setLevel? modifySource?
  cases hs : (c.component? id).bind (·.kind.source?) with
  | none =>
      refine eq_withLevels rfl fun a => ?_
      cases hx : c.component? a with
      | none => exact hx
      | some x =>
          refine hx.trans ?_
          by_cases ha : a = id
          · have hkind : x.kind.source? = none := by rwa [← ha, hx] at hs
            simp [ha, x.atLevel_of_source? hkind]
          · simp [List.lookup_cons, beq_false_of_ne ha]
  | some s =>
      refine eq_withLevels rfl fun a => ?_
      refine (component?_modify c id (·.atLevel on) (fun _ => rfl) a).trans ?_
      by_cases ha : a = id
      · simp [ha]
      · simp [List.lookup_cons, beq_false_of_ne ha, ha]

/-- Setting levels one by one replaces them all, as long as no source is set twice. -/
theorem setLevels_eq_withLevels (hlevels : (levels.map (·.1)).Nodup) (c : Circuit) :
    c.setLevels levels = c.withLevels levels := by
  induction levels generalizing c with
  | nil => exact eq_withLevels rfl fun a => by simp [setLevels]
  | cons l levels ih =>
      obtain ⟨k, on⟩ := l
      obtain ⟨hfirst, hrest⟩ := List.nodup_cons.1 hlevels
      have hstep :
          c.setLevels ((k, on) :: levels) = (c.withLevels [(k, on)]).withLevels levels := by
        rw [← ih hrest, ← setLevel_eq_withLevels]
        rfl
      refine hstep.trans (eq_withLevels rfl fun a => ?_)
      rw [component?_withLevels, component?_withLevels, Option.map_map]
      by_cases ha : a = k
      · have hnone : levels.lookup k = none := List.lookup_eq_none_iff.2 fun p hp => by
          have hne : k ≠ p.1 := fun h => hfirst (List.mem_map.2 ⟨p, hp, h.symm⟩)
          simpa using hne
        simp [ha, hnone, Function.comp_def]
      · simp [List.lookup_cons, beq_false_of_ne ha, Function.comp_def]

/-! ## Passes -/

/-- What the evaluation of a component keeps of it, a pass keeps of the circuit. -/
theorem bind_component?_evaluate {α : Type} {f : Component → Option α}
    (h : ∀ x bits, f (x.evaluate bits) = f x) (s : Simulator) (c : Circuit) (id : ComponentId) :
    ((s.evaluate c).2.2.component? id).bind f = (c.component? id).bind f := by
  have hstep : ∀ (c : Circuit) a, ((c.evaluateOne a).component? id).bind f =
      (c.component? id).bind f := by
    intro c a
    rw [evaluateOne, component?_modify]
    split
    · cases c.component? id with
      | none => rfl
      | some x => exact h x _
    · rfl
  have hpass : ∀ (order : List ComponentId) (c : Circuit),
      ((order.foldl evaluateOne c).component? id).bind f = (c.component? id).bind f := by
    intro order
    induction order with
    | nil => exact fun _ => rfl
    | cons a order ih => exact fun c => (ih (c.evaluateOne a)).trans (hstep c a)
  show ((c.evaluateAll _).2.component? id).bind f = _
  rw [evaluateAll_snd, hpass]

theorem level?_evaluate (s : Simulator) (c : Circuit) (id : ComponentId) :
    (s.evaluate c).2.2.level? id = c.level? id :=
  bind_component?_evaluate Component.level?_evaluate s c id

theorem label?_evaluate (s : Simulator) (c : Circuit) (id : ComponentId) :
    (s.evaluate c).2.2.label? id = c.label? id :=
  bind_component?_evaluate Component.label_evaluate s c id

/-- After a pass over a circuit without cycles a sink shows its value. -/
theorem WellWired.showsSet_evaluate (h : c.WellWired) (hacyclic : c.readerGraph.Acyclic)
    {s : Simulator} (hs : s.BelongsTo c) (hx : c.component? id = some x) (hsink : x.kind.isSink) :
    (s.evaluate c).2.2.showsSet id = c.denote id := by
  have hpass := h.component?_evaluate hs hx
  rw [← h.outputOf_evaluate hs hx (h.acyclicCone hacyclic id), showsSet, outputOf,
    Option.bind_some, hpass, Option.any_some]
  unfold Component.evaluate
  cases hk : x.kind with
  | sink t => rfl
  | gate g => rw [hk] at hsink; cases hsink
  | source t => rw [hk] at hsink; cases hsink

end Circuit

end LogicCircuit
