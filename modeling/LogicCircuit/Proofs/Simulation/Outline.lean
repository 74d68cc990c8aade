import LogicCircuit.Proofs.Circuit.Likeness
import LogicCircuit.Proofs.Simulation.Coherence

/-!
# The outline of a circuit

A simulation reads the kinds of the components with their state, their outputs and what drives
each slot. It does not read the names of the wires, the places on the plane or the numbers that
count names and changes. `Circuit.outline` is what it reads: circuits with the same outline have
the same order of evaluation and the same snapshot, and a pass, the clocks, a reset and every
setting take them to circuits with the same outline again.
-/

namespace LogicCircuit

/-- The component without its wires and its place. -/
def Component.bare (x : Component) : Component := { x with slots := [], position := .origin }

/-- What a simulation reads of a circuit. -/
structure Circuit.Outline where
  /-- The components without wires and places, by name. -/
  components : List Component
  /-- What drives each slot of a component. -/
  drivers : ComponentId → List (Option ComponentId)

/-- The outline of a circuit. -/
def Circuit.outline (c : Circuit) : Circuit.Outline :=
  ⟨c.components.entries.map (·.bare), c.driversOf⟩

namespace Component

/-- An evaluation does not depend on wires and places. -/
theorem bare_evaluate (x : Component) (bits : List Bool) :
    (x.evaluate bits).bare = (x.bare.evaluate bits).bare := by
  obtain ⟨id, kind, _⟩ := x
  cases kind <;> rfl

theorem bare_reset (x : Component) (now : Float) :
    (x.reset now).bare = (x.bare.reset now).bare := by
  obtain ⟨id, kind, _⟩ := x
  cases kind <;> rfl

end Component

namespace Circuit

variable {c d : Circuit} {id : ComponentId}

/-! ## What the outline decides -/

/-- A listing that does not look at wires and places is read off the outline. -/
theorem map_filter_of_outline {α : Type} (h : d.outline = c.outline) (p : Component → Bool)
    (f : Component → α) (hp : ∀ x, p x.bare = p x) (hf : ∀ x, f x.bare = f x) :
    (d.components.entries.filter p).map f = (c.components.entries.filter p).map f :=
  map_filter_of_entries (congrArg Outline.components h) p f hp hf

theorem map_of_outline {α : Type} (h : d.outline = c.outline) (f : Component → α)
    (hf : ∀ x, f x.bare = f x) : d.components.entries.map f = c.components.entries.map f := by
  have hall := map_filter_of_outline h (fun _ => true) f (fun _ => rfl) hf
  rwa [List.filter_true, List.filter_true] at hall

/-- Circuits with the same outline look up components that differ in wires and places alone. -/
theorem bare_component? (h : d.outline = c.outline) (id : ComponentId) :
    (d.component? id).map (·.bare) = (c.component? id).map (·.bare) := by
  have hlook : ∀ c : Circuit, (c.component? id).map (·.bare) =
      c.outline.components.find? fun x => x.id == id := fun c => by
    rw [outline, List.find?_map]
    rfl
  rw [hlook, hlook, h]

/-- What is asked of a component without looking at wires and places has the same answer. -/
theorem bind_of_outline {α : Type} (h : d.outline = c.outline) (f : Component → Option α)
    (hf : ∀ x, f x.bare = f x) (id : ComponentId) :
    (d.component? id).bind f = (c.component? id).bind f :=
  bind_of_lookup (bare_component? h id) f hf

theorem driversOf_of_outline (h : d.outline = c.outline) : d.driversOf = c.driversOf :=
  congrArg Outline.drivers h

theorem outputOf_of_outline (h : d.outline = c.outline) : d.outputOf = c.outputOf :=
  outputOf_of_lookup (bind_of_outline h _ fun _ => rfl)

/-- The same bits are on the slots. -/
theorem inputValues_of_outline (h : d.outline = c.outline) (id : ComponentId) :
    d.inputValues id = c.inputValues id := by
  rw [inputValues, inputValues, driversOf_of_outline h, outputOf_of_outline h]

theorem ids_of_outline (h : d.outline = c.outline) : d.ids = c.ids :=
  map_of_outline h (·.id) fun _ => rfl

/-- Circuits with the same outline are evaluated in the same order. -/
theorem evaluationOrder_of_outline (h : d.outline = c.outline) :
    d.evaluationOrder = c.evaluationOrder := by
  have hsinks : d.sinks.map (·.id) = c.sinks.map (·.id) :=
    map_filter_of_outline h (·.kind.isSink) (·.id) (fun _ => rfl) fun _ => rfl
  simp only [evaluationOrder, driverGraph, ids_of_outline h, driversOf_of_outline h, hsinks]

theorem snapshot_of_outline (h : d.outline = c.outline) : d.snapshot = c.snapshot := by
  rw [snapshot, snapshot, map_of_outline h]
  exact fun _ => rfl

/-- The same clocks are due. -/
theorem dueClocks_of_outline (h : d.outline = c.outline) (now : Float) :
    d.dueClocks now = c.dueClocks now :=
  map_filter_of_outline h _ _ (fun _ => rfl) fun _ => rfl

theorem trace?_of_outline (h : d.outline = c.outline) (id : ComponentId) :
    d.trace? id = c.trace? id :=
  trace?_of_lookup (bind_of_outline h _ fun _ => rfl) (driversOf_of_outline h) id

/-! ## What keeps outlines alike -/

/-- A change of all components within their frames that does not look at wires and places takes
circuits with the same outline to circuits with the same outline. -/
theorem outline_map (h : d.outline = c.outline) {change : Component → Component}
    (keeps : ∀ x, (change x).id = x.id) (hframe : ∀ x, (change x).frame = x.frame)
    (hbare : ∀ x, (change x).bare = (change x.bare).bare) :
    ({ d with components := d.components.map change keeps } : Circuit).outline =
      ({ c with components := c.components.map change keeps } : Circuit).outline := by
  have hread : ∀ c : Circuit,
      ({ c with components := c.components.map change keeps } : Circuit).outline =
        ⟨c.outline.components.map fun x => (change x).bare, c.outline.drivers⟩ := fun c => by
    rw [outline, driversOf_of_frame (frame_map c change keeps hframe)]
    simp only [outline, Roster.map, List.map_map, Function.comp_def, ← hbare]
  rw [hread, hread, h]

/-- The same holds for a change of one component. -/
theorem outline_modify (h : d.outline = c.outline) (id : ComponentId)
    {change : Component → Component} (keeps : ∀ x, (change x).id = x.id)
    (hframe : ∀ x, (change x).frame = x.frame)
    (hbare : ∀ x, (change x).bare = (change x.bare).bare) :
    (d.modify id change keeps).outline = (c.modify id change keeps).outline := by
  refine outline_map h _ (fun x => ?_) fun x => ?_
  · split
    · exact hframe x
    · rfl
  · show (if x.id == id then change x else x).bare =
      (if x.id == id then change x.bare else x.bare).bare
    split
    · exact hbare x
    · rfl

theorem outline_evaluateOne (h : d.outline = c.outline) (id : ComponentId) :
    (d.evaluateOne id).outline = (c.evaluateOne id).outline := by
  have hmodify := outline_modify h id (fun x => id_evaluate x (c.inputValues id))
    (fun x => x.frame_evaluate _) fun x => x.bare_evaluate _
  unfold evaluateOne
  rw [inputValues_of_outline h]
  exact hmodify

/-- The names that a pass lists are those of the components that have changed after their turn. -/
theorem evaluateAll_cons (id : ComponentId) (ids : List ComponentId) (c : Circuit) :
    c.evaluateAll (id :: ids) =
      (if ((c.evaluateOne id).component? id).any (·.changed)
        then id :: ((c.evaluateOne id).evaluateAll ids).1
        else ((c.evaluateOne id).evaluateAll ids).1,
      ((c.evaluateOne id).evaluateAll ids).2) := by
  rw [evaluateAll]
  cases (c.evaluateOne id).component? id with
  | none => simp
  | some x => cases hx : x.changed <;> simp [hx]

/-- A pass lists the same components as changed, and leaves the same outline. -/
theorem outline_evaluateAll (h : d.outline = c.outline) (ids : List ComponentId) :
    (d.evaluateAll ids).1 = (c.evaluateAll ids).1 ∧
      (d.evaluateAll ids).2.outline = (c.evaluateAll ids).2.outline := by
  induction ids generalizing c d with
  | nil => exact ⟨rfl, h⟩
  | cons id ids ih =>
      have hone := outline_evaluateOne h id
      obtain ⟨hchanged, hrest⟩ := ih hone
      have hflag : ∀ {c d : Circuit}, d.outline = c.outline →
          (d.component? id).any (·.changed) = (c.component? id).any (·.changed) := by
        intro c d h
        have hread : ∀ c : Circuit, (c.component? id).any (·.changed) =
            ((c.component? id).bind fun x => some x.changed).any fun b => b := fun c => by
          cases c.component? id <;> rfl
        rw [hread, hread, bind_of_outline h (fun x => some x.changed) fun _ => rfl]
      rw [evaluateAll_cons, evaluateAll_cons, hflag hone, hchanged]
      exact ⟨rfl, hrest⟩

theorem outline_toggleClocks (h : d.outline = c.outline) (now : Float) :
    (d.toggleClocks now).outline = (c.toggleClocks now).outline :=
  outline_map h _ (fun x => x.frame_toggleDue now) fun _ => rfl

theorem outline_reset (h : d.outline = c.outline) (now : Float) :
    (d.reset now).outline = (c.reset now).outline :=
  outline_map h _ (fun x => x.frame_reset now) fun x => x.bare_reset now

/-- A change of a source applies to both circuits or to neither. -/
theorem outline_modifySource (h : d.outline = c.outline) (id : ComponentId) (fits : Source → Bool)
    {change : Source → Source} (hblank : ∀ s, (change s).blank = s.blank) :
    (d.modifySource? id fits change).map (·.outline) =
      (c.modifySource? id fits change).map (·.outline) := by
  have hsource := bind_of_outline h (·.kind.source?) (fun _ => rfl) id
  unfold modifySource?
  rw [hsource]
  cases (c.component? id).bind (·.kind.source?) with
  | none => rfl
  | some s =>
      dsimp only
      split
      · refine congrArg some (outline_modify h id _ (fun x => ?_) fun _ => rfl)
        simp only [Component.frame, x.kind.blank_mapSource hblank]
      · rfl

/-- A change of a component applies to both circuits or to neither. -/
theorem outline_change (h : d.outline = c.outline) (id : ComponentId)
    {change : Component → Component} (keeps : ∀ x, (change x).id = x.id)
    (hframe : ∀ x, (change x).frame = x.frame)
    (hbare : ∀ x, (change x).bare = (change x.bare).bare) :
    ((d.component? id).map fun _ => d.modify id change keeps).map (·.outline) =
      ((c.component? id).map fun _ => c.modify id change keeps).map (·.outline) := by
  have hlook :
      ((d.component? id).map (·.bare)).isSome = ((c.component? id).map (·.bare)).isSome :=
    congrArg Option.isSome (bare_component? h id)
  have hmodify := outline_modify h id keeps hframe hbare
  cases hx : c.component? id <;> cases hy : d.component? id <;> simp_all

end Circuit

/-- The operation of an edit that is a setting, which changes the state of a component, its label
or its place. -/
def Edit.setting? : Edit → Option (Circuit → Option Circuit)
  | setLevel id level => some (·.setLevel? id level)
  | setSwitch id level => some (·.setSwitch? id level)
  | press id pressed => some (·.press? id pressed)
  | toggle id => some (·.toggle? id)
  | setFrequency id hz => some (·.setFrequency? id hz)
  | setLabel id label => some (·.setLabel? id label)
  | move id dx dy => some (·.move? id dx dy)
  | _ => none

/-- A setting that does not apply changes nothing. -/
theorem Edit.apply_of_setting {e : Edit} {set : Circuit → Option Circuit}
    (h : e.setting? = some set) (c : Circuit) : e.apply c = (set c).getD c := by
  cases e <;> cases h <;> rfl

/-- A setting keeps the frame. -/
theorem Edit.frame_of_setting {e : Edit} {set : Circuit → Option Circuit}
    (h : e.setting? = some set) {c d : Circuit} (hd : set c = some d) : d.frame = c.frame := by
  cases e <;> cases h
  case setLevel => exact Circuit.frame_setLevel hd
  case setSwitch => exact Circuit.frame_modifySource (by simp) hd
  case press => exact Circuit.frame_modifySource (by simp) hd
  case toggle => exact Circuit.frame_modifySource (by simp) hd
  case setFrequency => exact Circuit.frame_modifySource (by simp) hd
  case setLabel => exact Circuit.frame_setLabel hd
  case move => exact Circuit.frame_move hd

/-- A setting applies to both of two circuits with the same outline or to neither, and leaves the
same outline. -/
theorem Edit.outline_of_setting {e : Edit} {set : Circuit → Option Circuit}
    (h : e.setting? = some set) {c d : Circuit} (hcd : d.outline = c.outline) :
    (set d).map (·.outline) = (set c).map (·.outline) := by
  cases e <;> cases h
  case setLevel => exact Circuit.outline_modifySource hcd _ _ (by simp)
  case setSwitch => exact Circuit.outline_modifySource hcd _ _ (by simp)
  case press => exact Circuit.outline_modifySource hcd _ _ (by simp)
  case toggle => exact Circuit.outline_modifySource hcd _ _ (by simp)
  case setFrequency => exact Circuit.outline_modifySource hcd _ _ (by simp)
  case setLabel => exact Circuit.outline_change hcd _ _ (fun _ => rfl) fun _ => rfl
  case move => exact Circuit.outline_change hcd _ _ (fun _ => rfl) fun _ => rfl

end LogicCircuit
