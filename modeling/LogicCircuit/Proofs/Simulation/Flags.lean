import LogicCircuit.Proofs.Simulation.Reset

/-!
# Flags

An evaluation leaves a flag on a component that says whether it changed it. No operation reads a
flag that was there before it: circuits that differ in flags alone (`Circuit.unflagged`) have the
same order, passes over them report the same, and they differ in flags alone afterwards. So two
sessions that are in step up to flags, `Session.Together`, stay so and report the same
(`Together.perform`).
-/

namespace LogicCircuit

/-- The component without the flag of its last evaluation. -/
def Component.unflagged (x : Component) : Component := { x with changed := false }

/-- The circuit without the flags of the last evaluations. -/
def Circuit.unflagged (c : Circuit) : Circuit :=
  { c with components := c.components.map (·.unflagged) fun _ => rfl }

/-- An evaluation does not depend on the flag of the one before. -/
theorem Component.evaluate_unflagged (x : Component) (bits : List Bool) :
    x.unflagged.evaluate bits = x.evaluate bits := by
  obtain ⟨id, kind, _⟩ := x
  cases kind <;> rfl

theorem Component.reset_unflagged (x : Component) (now : Float) :
    x.unflagged.reset now = x.reset now := by
  obtain ⟨id, kind, _⟩ := x
  cases kind <;> rfl

namespace Circuit

variable {c d : Circuit} {id : ComponentId}

theorem frame_unflagged (c : Circuit) : c.unflagged.frame = c.frame :=
  frame_map c (·.unflagged) (fun _ => rfl) fun _ => rfl

theorem unflagged_unflagged (c : Circuit) : c.unflagged.unflagged = c.unflagged := by
  have hentries : (c.components.entries.map (·.unflagged)).map (·.unflagged) =
      c.components.entries.map (·.unflagged) := by
    rw [List.map_map]
    rfl
  simp only [unflagged, Roster.map, hentries]

theorem component?_unflagged (c : Circuit) (id : ComponentId) :
    c.unflagged.component? id = (c.component? id).map (·.unflagged) :=
  Roster.get?_map c.components (·.unflagged) (fun _ => rfl) id

/-! ## What does not depend on flags -/

theorem frame_of_unflagged (h : d.unflagged = c.unflagged) : d.frame = c.frame := by
  rw [← d.frame_unflagged, h, c.frame_unflagged]

theorem lookup_of_unflagged (h : d.unflagged = c.unflagged) (id : ComponentId) :
    (d.component? id).map (·.unflagged) = (c.component? id).map (·.unflagged) := by
  rw [← component?_unflagged, h, component?_unflagged]

/-- A listing that does not look at flags is the same. -/
theorem map_filter_of_unflagged {α : Type} (h : d.unflagged = c.unflagged) (p : Component → Bool)
    (f : Component → α) (hp : ∀ x, p x.unflagged = p x) (hf : ∀ x, f x.unflagged = f x) :
    (d.components.entries.filter p).map f = (c.components.entries.filter p).map f :=
  map_filter_of_entries (congrArg (·.components.entries) h) p f hp hf

/-- What is asked of a component without looking at its flag has the same answer. -/
theorem bind_of_unflagged {α : Type} (h : d.unflagged = c.unflagged) (f : Component → Option α)
    (hf : ∀ x, f x.unflagged = f x) (id : ComponentId) :
    (d.component? id).bind f = (c.component? id).bind f :=
  bind_of_lookup (lookup_of_unflagged h id) f hf

theorem outputOf_of_unflagged (h : d.unflagged = c.unflagged) : d.outputOf = c.outputOf :=
  outputOf_of_lookup (bind_of_unflagged h _ fun _ => rfl)

theorem inputValues_of_unflagged (h : d.unflagged = c.unflagged) (id : ComponentId) :
    d.inputValues id = c.inputValues id := by
  rw [inputValues, inputValues, driversOf_of_frame (frame_of_unflagged h),
    outputOf_of_unflagged h]

theorem trace?_of_unflagged (h : d.unflagged = c.unflagged) (id : ComponentId) :
    d.trace? id = c.trace? id :=
  trace?_of_lookup (bind_of_unflagged h _ fun _ => rfl)
    (driversOf_of_frame (frame_of_unflagged h)) id

theorem snapshot_of_unflagged (h : d.unflagged = c.unflagged) : d.snapshot = c.snapshot := by
  have hall := map_filter_of_unflagged h (fun _ => true)
    (fun x => x.id ++ ":" ++ if x.output then "1" else "0") (fun _ => rfl) fun _ => rfl
  rw [List.filter_true, List.filter_true] at hall
  rw [snapshot, snapshot, hall]

/-! ## What keeps circuits the same up to flags -/

/-- A change of all components that does not look at flags. -/
theorem unflagged_map (h : d.unflagged = c.unflagged) {change : Component → Component}
    (keeps : ∀ x, (change x).id = x.id)
    (hchange : ∀ x, (change x.unflagged).unflagged = (change x).unflagged) :
    ({ d with components := d.components.map change keeps } : Circuit).unflagged =
      ({ c with components := c.components.map change keeps } : Circuit).unflagged := by
  have hread : ∀ c : Circuit,
      ({ c with components := c.components.map change keeps } : Circuit).unflagged =
        ({ c.unflagged with components := c.unflagged.components.map change keeps } :
          Circuit).unflagged := fun c => by
    have hentries : (c.components.entries.map change).map (·.unflagged) =
        ((c.components.entries.map (·.unflagged)).map change).map (·.unflagged) := by
      simp only [List.map_map, Function.comp_def, hchange]
    simp only [unflagged, Roster.map, hentries]
  rw [hread d, hread c, h]

/-- A change of one component that does not look at its flag. -/
theorem unflagged_modify (h : d.unflagged = c.unflagged) (id : ComponentId)
    {change : Component → Component} (keeps : ∀ x, (change x).id = x.id)
    (hchange : ∀ x, (change x.unflagged).unflagged = (change x).unflagged) :
    (d.modify id change keeps).unflagged = (c.modify id change keeps).unflagged := by
  refine unflagged_map h _ fun x => ?_
  show (if x.id == id then change x.unflagged else x.unflagged).unflagged =
    (if x.id == id then change x else x).unflagged
  split
  · exact hchange x
  · rfl

/-- An evaluation sets the flag to the same value, and leaves circuits that are the same up to
flags. -/
theorem evaluateOne_of_unflagged (h : d.unflagged = c.unflagged) (id : ComponentId) :
    (d.evaluateOne id).component? id = (c.evaluateOne id).component? id ∧
      (d.evaluateOne id).unflagged = (c.evaluateOne id).unflagged := by
  have hinputs := inputValues_of_unflagged h id
  constructor
  · have hlook : ∀ c : Circuit, (c.evaluateOne id).component? id =
        ((c.component? id).map (·.unflagged)).map (·.evaluate (c.inputValues id)) := fun c => by
      refine (component?_modify c id _ _ id).trans ((if_pos rfl).trans ?_)
      rw [Option.map_map]
      exact congrArg (Option.map · _) (funext fun x => (x.evaluate_unflagged _).symm)
    rw [hlook, hlook, lookup_of_unflagged h, hinputs]
  · unfold evaluateOne
    rw [hinputs]
    exact unflagged_modify h id _ fun x => by rw [x.evaluate_unflagged]

/-- A pass lists the same components as changed, and leaves circuits that are the same up to
flags. -/
theorem evaluateAll_of_unflagged (h : d.unflagged = c.unflagged) (ids : List ComponentId) :
    (d.evaluateAll ids).1 = (c.evaluateAll ids).1 ∧
      (d.evaluateAll ids).2.unflagged = (c.evaluateAll ids).2.unflagged := by
  induction ids generalizing c d with
  | nil => exact ⟨rfl, h⟩
  | cons id ids ih =>
      obtain ⟨hself, hone⟩ := evaluateOne_of_unflagged h id
      obtain ⟨hchanged, hrest⟩ := ih hone
      rw [evaluateAll_cons, evaluateAll_cons, hself, hchanged]
      exact ⟨rfl, hrest⟩

/-- A change of a source applies to both circuits or to neither. -/
theorem unflagged_modifySource (h : d.unflagged = c.unflagged) (id : ComponentId)
    (fits : Source → Bool) (change : Source → Source) :
    (d.modifySource? id fits change).map (·.unflagged) =
      (c.modifySource? id fits change).map (·.unflagged) := by
  have hsource := bind_of_unflagged h (·.kind.source?) (fun _ => rfl) id
  unfold modifySource?
  rw [hsource]
  cases (c.component? id).bind (·.kind.source?) with
  | none => rfl
  | some s =>
      dsimp only
      split
      · exact congrArg some (unflagged_modify h id _ fun _ => rfl)
      · rfl

/-- A change of a component applies to both circuits or to neither. -/
theorem unflagged_change (h : d.unflagged = c.unflagged) (id : ComponentId)
    {change : Component → Component} (keeps : ∀ x, (change x).id = x.id)
    (hchange : ∀ x, (change x.unflagged).unflagged = (change x).unflagged) :
    ((d.component? id).map fun _ => d.modify id change keeps).map (·.unflagged) =
      ((c.component? id).map fun _ => c.modify id change keeps).map (·.unflagged) := by
  have hlook := lookup_of_unflagged h id
  cases hx : c.component? id with
  | none =>
      rw [hx, Option.map_none, Option.map_eq_none_iff] at hlook
      rw [hlook]
      rfl
  | some x =>
      rw [hx, Option.map_some, Option.map_eq_some_iff] at hlook
      obtain ⟨y, hy, -⟩ := hlook
      rw [hy]
      exact congrArg some (unflagged_modify h id keeps hchange)

end Circuit

/-- A setting applies to both of two circuits that are the same up to flags or to neither. -/
theorem Edit.unflagged_of_setting {e : Edit} {set : Circuit → Option Circuit}
    (h : e.setting? = some set) {c d : Circuit} (hcd : d.unflagged = c.unflagged) :
    (set d).map (·.unflagged) = (set c).map (·.unflagged) := by
  cases e <;> cases h
  case setLevel => exact Circuit.unflagged_modifySource hcd _ _ _
  case setSwitch => exact Circuit.unflagged_modifySource hcd _ _ _
  case press => exact Circuit.unflagged_modifySource hcd _ _ _
  case toggle => exact Circuit.unflagged_modifySource hcd _ _ _
  case setFrequency => exact Circuit.unflagged_modifySource hcd _ _ _
  case setLabel => exact Circuit.unflagged_change hcd _ _ fun _ => rfl
  case move => exact Circuit.unflagged_change hcd _ _ fun _ => rfl

namespace Simulator

variable {s : Simulator} {c d : Circuit}

theorem refresh_of_unflagged (h : d.unflagged = c.unflagged) : s.refresh d = s.refresh c := by
  have hframe := Circuit.frame_of_unflagged h
  unfold refresh
  rw [Circuit.revision_of_frame hframe, Circuit.evaluationOrder_of_frame hframe]

/-- Two results are the same but for the flags of the circuits. -/
def SameButFlags {ρ : Type} (r r' : ρ × Simulator × Circuit) : Prop :=
  r'.1 = r.1 ∧ r'.2.1 = r.2.1 ∧ r'.2.2.unflagged = r.2.2.unflagged

theorem evaluate_of_unflagged (s : Simulator) (h : d.unflagged = c.unflagged) :
    SameButFlags (s.evaluate c) (s.evaluate d) := by
  have hpass := Circuit.evaluateAll_of_unflagged h (s.refresh c).order.closed
  have hfound : d.components.contains = c.components.contains := by
    funext id
    have hsome := congrArg Option.isSome (Circuit.lookup_of_unflagged h id)
    rwa [Option.isSome_map, Option.isSome_map] at hsome
  unfold evaluate
  rw [refresh_of_unflagged h, hfound]
  exact ⟨hpass.1, rfl, hpass.2⟩

theorem tick_of_unflagged (s : Simulator) (h : d.unflagged = c.unflagged) (now : Float) :
    SameButFlags (s.tick c now) (s.tick d now) := by
  have htoggled : (d.toggleClocks now).unflagged = (c.toggleClocks now).unflagged :=
    Circuit.unflagged_map h _ fun _ => rfl
  have hclocks : d.dueClocks now = c.dueClocks now :=
    Circuit.map_filter_of_unflagged h _ _ (fun _ => rfl) fun _ => rfl
  obtain ⟨hchanged, hsimulator, hcircuit⟩ :=
    ({ s with lastTime := now } : Simulator).evaluate_of_unflagged htoggled
  rw [tick_eq, tick_eq, hclocks]
  generalize ({ s with lastTime := now } : Simulator).evaluate (c.toggleClocks now) = pass at *
  generalize ({ s with lastTime := now } : Simulator).evaluate (d.toggleClocks now) = pass' at *
  obtain ⟨changed, s₁, c₁⟩ := pass
  obtain ⟨changed', s₁', d₁⟩ := pass'
  obtain rfl : changed' = changed := hchanged
  obtain rfl : s₁' = s₁ := hsimulator
  have hsnapshot : d₁.snapshot = c₁.snapshot := Circuit.snapshot_of_unflagged hcircuit
  simp only [conclude, hsnapshot]
  exact ⟨rfl, rfl, hcircuit⟩

end Simulator

namespace Session

variable {t u : Session}

/-- The session with the circuit without flags. -/
def unflagged (t : Session) : Session := { t with circuit := t.circuit.unflagged }

/-- Sessions that differ in flags alone report the same for an event that leaves the topology
alone, and differ in flags alone afterwards. -/
theorem perform_of_unflagged (h : u.unflagged = t.unflagged) {event : Event}
    (hevent : event.KeepsTopology) :
    u.answer event = t.answer event ∧
      (u.perform event).unflagged = (t.perform event).unflagged := by
  obtain ⟨s, c⟩ := t
  obtain ⟨s', d⟩ := u
  obtain ⟨hsimulator, hcircuit⟩ := Session.mk.inj h
  obtain rfl : s' = s := hsimulator
  replace hcircuit : d.unflagged = c.unflagged := hcircuit
  have hleft : ∀ {ρ : Type} {r r' : ρ × Simulator × Circuit}, Simulator.SameButFlags r r' →
      r'.1 = r.1 ∧ unflagged ⟨r'.2.1, r'.2.2⟩ = unflagged ⟨r.2.1, r.2.2⟩ :=
    fun ⟨hreport, hafter, hflags⟩ => ⟨hreport, by simp only [unflagged, hafter, hflags]⟩
  cases event with
  | edit e =>
      obtain ⟨set, hset⟩ := Option.isSome_iff_exists.1 hevent
      have hboth := Edit.unflagged_of_setting hset hcircuit
      simp only [answer, perform, unflagged, hset, e.apply_of_setting hset, Option.bind_some]
      cases hc : set c with
      | none =>
          rw [hc, Option.map_none, Option.map_eq_none_iff] at hboth
          rw [hboth]
          exact ⟨rfl, congrArg _ hcircuit⟩
      | some c' =>
          rw [hc, Option.map_some, Option.map_eq_some_iff] at hboth
          obtain ⟨d', hd, hboth⟩ := hboth
          rw [hd]
          exact ⟨rfl, congrArg _ hboth⟩
  | order =>
      simp only [answer, perform, unflagged, Simulator.refresh_of_unflagged hcircuit, hcircuit,
        and_self]
  | evaluate =>
      obtain ⟨hchanged, hafter⟩ := hleft (s'.evaluate_of_unflagged hcircuit)
      exact ⟨congrArg Answer.changed hchanged, hafter⟩
  | tick now =>
      obtain ⟨hreport, hafter⟩ := hleft (s'.tick_of_unflagged hcircuit now)
      exact ⟨congrArg Answer.report hreport, hafter⟩
  | step =>
      obtain ⟨hreport, hafter⟩ := hleft
        (s'.tick_of_unflagged hcircuit (s'.lastTime + s'.settings.interval))
      exact ⟨congrArg Answer.report hreport, hafter⟩
  | reset =>
      have hreset : (d.reset s'.lastTime).unflagged = (c.reset s'.lastTime).unflagged :=
        Circuit.unflagged_map hcircuit _ fun x => by rw [x.reset_unflagged]
      exact ⟨rfl, congrArg (Session.mk _) hreset⟩
  | trace id =>
      exact ⟨congrArg Answer.trace (Circuit.trace?_of_unflagged hcircuit id), h⟩

/-- The sessions cannot be told apart from here on, except by the flags that the last evaluations
left. -/
def Together (t u : Session) : Prop := InStep t.unflagged u.unflagged

theorem InStep.unflagged (h : InStep t u) : InStep t.unflagged u.unflagged :=
  h.withCircuits (Circuit.outline_map h.outline _ (fun _ => rfl) fun _ => rfl)
    (Circuit.revision_of_frame t.circuit.frame_unflagged)
    (Circuit.revision_of_frame u.circuit.frame_unflagged)

namespace Together

/-- The sessions report the same for an event that leaves the topology alone, and still cannot be
told apart. -/
theorem perform (h : Together t u) {event : Event} (hevent : event.KeepsTopology) :
    u.answer event = t.answer event ∧ Together (t.perform event) (u.perform event) := by
  have hforget : ∀ t : Session, t.unflagged.unflagged = t.unflagged := fun t =>
    congrArg (Session.mk _) t.circuit.unflagged_unflagged
  obtain ⟨hanswer, hstep⟩ := InStep.perform h hevent
  obtain ⟨ht, hafter⟩ := perform_of_unflagged (hforget t) hevent
  obtain ⟨hu, hafter'⟩ := perform_of_unflagged (hforget u) hevent
  refine ⟨hu.symm.trans (hanswer.trans ht), ?_⟩
  have hflagless := hstep.unflagged
  rwa [hafter, hafter'] at hflagless

end Together

end Session

end LogicCircuit
