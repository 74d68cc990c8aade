import LogicCircuit.Proofs.Circuit.Acyclicity
import LogicCircuit.Proofs.Circuit.Adding
import LogicCircuit.Proofs.Circuit.Objections
import LogicCircuit.Proofs.Simulation.Order

/-!
# Circuits that are alike

Two circuits are alike if they have the same components, with all that they hold, and if the same
components drive the same slots (`Circuit.Alike`). What the wires are called, how far the counters
have come and which components the last pass changed does not count. What is read off the
components one by one is the same for both (`Alike.bind`, `Alike.map_filter`), and so are the
graphs, as far as edges go. Hence the same wires are refused: `Alike.objection?_eq`.
-/

namespace LogicCircuit

/-! ## Circuits that agree in a part of each component -/

namespace Circuit

variable {c d : Circuit} {part : Component → Component}

/-- A listing that reads that part is the same. -/
theorem map_filter_of_entries {α : Type}
    (h : d.components.entries.map part = c.components.entries.map part) (p : Component → Bool)
    (f : Component → α) (hp : ∀ x, p (part x) = p x) (hf : ∀ x, f (part x) = f x) :
    (d.components.entries.filter p).map f = (c.components.entries.filter p).map f := by
  have hread : ∀ c : Circuit, (c.components.entries.filter p).map f =
      ((c.components.entries.map part).filter p).map f := fun c => by
    simp only [List.filter_map, List.map_map, Function.comp_def, hp, hf]
  rw [hread d, hread c, h]

/-- What is asked of that part of a component has the same answer. -/
theorem bind_of_lookup {α : Type} {id : ComponentId}
    (h : (d.component? id).map part = (c.component? id).map part) (f : Component → Option α)
    (hf : ∀ x, f (part x) = f x) : (d.component? id).bind f = (c.component? id).bind f := by
  have hread : ∀ c : Circuit,
      (c.component? id).bind f = ((c.component? id).map part).bind f := fun c => by
    cases c.component? id with
    | none => rfl
    | some x => exact (hf x).symm
  rw [hread d, hread c, h]

/-- Where components have the same outputs, so have drivers. -/
theorem outputOf_of_lookup (h : ∀ id, (d.component? id).bind (fun x => some x.output) =
    (c.component? id).bind fun x => some x.output) : d.outputOf = c.outputOf := by
  have hread : ∀ (c : Circuit) (driver : Option ComponentId), c.outputOf driver =
      (driver.bind fun id => (c.component? id).bind fun x => some x.output).getD false := by
    intro c driver
    cases driver with
    | none => rfl
    | some id =>
        rw [outputOf, Option.bind_some, Option.bind_some]
        cases c.component? id <;> rfl
  funext driver
  rw [hread d, hread c]
  simp only [h]

/-- Where components have the same outputs and the same drivers, they have the same traces. -/
theorem trace?_of_lookup (h : ∀ id, (d.component? id).bind (fun x => some x.output) =
    (c.component? id).bind fun x => some x.output) (hdrivers : d.driversOf = c.driversOf)
    (id : ComponentId) : d.trace? id = c.trace? id := by
  have hread : ∀ c : Circuit, c.trace? id = ((c.component? id).bind fun x => some x.output).map
      fun output => (output, (c.driversOf id).zipIdx.map fun slot =>
        ⟨slot.2, slot.1, c.outputOf slot.1⟩) := fun c => by
    rw [trace?]
    cases c.component? id <;> rfl
  rw [hread d, hread c, h id, hdrivers, outputOf_of_lookup h]

end Circuit

/-! ## Circuits that agree in all but wires -/

/-- What a component is by itself: everything but the wires on its slots and the flag that the
last evaluation left. -/
def Component.standing (x : Component) : Component := { x with slots := [], changed := false }

theorem Component.eq_of_standing {x y : Component} (h : y.standing = x.standing) :
    y.id = x.id ∧ y.kind = x.kind ∧ y.position = x.position ∧ y.label = x.label ∧
      y.output = x.output := by
  obtain ⟨hid, hkind, hposition, hlabel, -, houtput, -⟩ := Component.mk.inj h
  exact ⟨hid, hkind, hposition, hlabel, houtput⟩

/-- Two circuits with the same components and the same driver on every slot. -/
structure Circuit.Alike (c d : Circuit) : Prop where
  /-- A name stands for components that are the same by themselves. -/
  components : ∀ id, (d.component? id).map (·.standing) = (c.component? id).map (·.standing)
  /-- The same components drive their slots. -/
  drivers : ∀ id, d.driversOf id = c.driversOf id

namespace Circuit

variable {c d : Circuit} {id a b : ComponentId} {x : Component}

/-- Circuits are alike if their components are the same by themselves, in the order of their
names, and have the same drivers. -/
theorem Alike.of_entries
    (hcomponents : d.components.entries.map (·.standing) = c.components.entries.map (·.standing))
    (hdrivers : ∀ id ∈ c.ids, d.driversOf id = c.driversOf id) : c.Alike d := by
  have hread : ∀ (c : Circuit) (id : ComponentId), (c.component? id).map (·.standing) =
      (c.components.entries.map (·.standing)).find? fun x => x.id == id := fun c id => by
    rw [List.find?_map]
    rfl
  have hlook : ∀ id, (d.component? id).map (·.standing) = (c.component? id).map (·.standing) :=
    fun id => by rw [hread, hread, hcomponents]
  refine ⟨hlook, fun id => ?_⟩
  by_cases hid : id ∈ c.ids
  · exact hdrivers id hid
  · -- what is no component has no slots
    have hc : c.component? id = none :=
      Option.eq_none_iff_forall_ne_some.2 fun x hx => hid (mem_ids_of_component? hx)
    have hd := hlook id
    rw [hc, Option.map_none, Option.map_eq_none_iff] at hd
    rw [driversOf, driversOf, hc, hd]

namespace Alike

theorem symm (h : c.Alike d) : d.Alike c :=
  ⟨fun id => (h.components id).symm, fun id => (h.drivers id).symm⟩

/-! ## Components -/

/-- What is asked of a component by itself has the same answer. -/
theorem bind {α : Type} (h : c.Alike d) (f : Component → Option α)
    (hf : ∀ x, f x.standing = f x) (id : ComponentId) :
    (d.component? id).bind f = (c.component? id).bind f :=
  bind_of_lookup (h.components id) f hf

/-- A component of the one circuit is found, by itself the same, in the other. -/
theorem exists_component (h : c.Alike d) (hx : c.component? id = some x) :
    ∃ y, d.component? id = some y ∧ y.standing = x.standing := by
  have hcomponent := h.components id
  rwa [hx, Option.map_some, Option.map_eq_some_iff] at hcomponent

theorem component?_eq_none (h : c.Alike d) (hx : c.component? id = none) :
    d.component? id = none := by
  have hcomponent := h.components id
  rwa [hx, Option.map_none, Option.map_eq_none_iff] at hcomponent

theorem standing_entries (h : c.Alike d) :
    d.components.entries.map (·.standing) = c.components.entries.map (·.standing) := by
  have hroster : d.components.map (·.standing) (fun _ => rfl) =
      c.components.map (·.standing) fun _ => rfl :=
    Roster.ext_get? fun id => (Roster.get?_map d.components _ _ id).trans
      ((h.components id).trans (Roster.get?_map c.components _ _ id).symm)
  exact congrArg Roster.entries hroster

/-- A listing that is read off the components by themselves is the same. -/
theorem map_filter {α : Type} (h : c.Alike d) (p : Component → Bool) (f : Component → α)
    (hp : ∀ x, p x.standing = p x) (hf : ∀ x, f x.standing = f x) :
    (d.components.entries.filter p).map f = (c.components.entries.filter p).map f :=
  map_filter_of_entries h.standing_entries p f hp hf

theorem ids_eq (h : c.Alike d) : d.ids = c.ids := by
  have hids := h.map_filter (fun _ => true) (·.id) (fun _ => rfl) fun _ => rfl
  rwa [List.filter_true, List.filter_true] at hids

/-! ## Edges -/

theorem driversOf_eq (h : c.Alike d) : d.driversOf = c.driversOf := funext h.drivers

theorem driverGraph_eq (h : c.Alike d) : d.driverGraph = c.driverGraph := by
  rw [driverGraph, driverGraph, h.ids_eq, h.driversOf_eq]

/-- Circuits that are alike are evaluated in the same order. -/
theorem evaluationOrder_eq (h : c.Alike d) : d.evaluationOrder = c.evaluationOrder := by
  have hsinks : d.sinks.map (·.id) = c.sinks.map (·.id) :=
    h.map_filter (·.kind.isSink) (·.id) (fun _ => rfl) fun _ => rfl
  rw [evaluationOrder, evaluationOrder, h.driverGraph_eq, h.ids_eq, hsinks]

section Wired

variable (hc : c.WellWired) (hd : d.WellWired)
include hc hd

/-- Each component drives the same ones, through whatever wires. -/
theorem mem_next_iff (h : c.Alike d) :
    b ∈ d.readerGraph.next a ↔ b ∈ c.readerGraph.next a := by
  rw [← hd.mem_next_driverGraph_iff, ← hc.mem_next_driverGraph_iff, h.driverGraph_eq]

theorem reaches_iff (h : c.Alike d) :
    d.readerGraph.Reaches a b ↔ c.readerGraph.Reaches a b :=
  or_congr_right ⟨.mono fun _ _ hy => (h.mem_next_iff hc hd).1 hy,
    .mono fun _ _ hy => (h.mem_next_iff hc hd).2 hy⟩

theorem wouldCreateCycle_eq (h : c.Alike d) (source target : ComponentId) :
    d.wouldCreateCycle source target = c.wouldCreateCycle source target := by
  rw [Bool.eq_iff_iff, wouldCreateCycle_iff hd, wouldCreateCycle_iff hc, h.reaches_iff hc hd]

/-- Both have cycles or neither has. -/
theorem hasCycle_eq (h : c.Alike d) : d.hasCycle = c.hasCycle := by
  have hfalse : d.hasCycle = false ↔ c.hasCycle = false := by
    rw [hd.hasCycle_eq_false_iff, hc.hasCycle_eq_false_iff]
    exact ⟨fun hacyclic => hacyclic.of_le fun _ _ hy => (h.mem_next_iff hc hd).2 hy,
      fun hacyclic => hacyclic.of_le fun _ _ hy => (h.mem_next_iff hc hd).1 hy⟩
  rw [Bool.eq_iff_iff, ← not_iff_not, Bool.not_eq_true, Bool.not_eq_true, hfalse]

/-! ## Refusals -/

/-- A component has as many slots in both. -/
theorem arity_eq (h : c.Alike d) {y : Component} (hx : c.component? id = some x)
    (hy : d.component? id = some y) : y.arity = x.arity := by
  have hlength : ∀ {c : Circuit} {x : Component}, c.WellWired → c.component? id = some x →
      x.arity = (c.driversOf id).length := fun hc hx => by
    rw [hc.length_driversOf hx, ← (hc.formed hx).slots, Component.arity]
  rw [hlength hd hy, hlength hc hx, h.drivers]

/-- The same wires are refused, for the same reasons. -/
theorem objection?_eq (h : c.Alike d) (loopsAllowed : Bool) (source target : ComponentId)
    (slot : Nat) : d.objection? loopsAllowed source target slot =
      c.objection? loopsAllowed source target slot := by
  unfold objection?
  cases hs : c.component? source with
  | none => rw [h.component?_eq_none hs]
  | some s =>
      obtain ⟨s', hs', hss⟩ := h.exists_component hs
      rw [hs']
      cases ht : c.component? target with
      | none => rw [h.component?_eq_none ht]
      | some t =>
          obtain ⟨t', ht', -⟩ := h.exists_component ht
          have hkind : s'.kind = s.kind := (Component.eq_of_standing hss).2.1
          simp only [ht', hkind, h.arity_eq hc hd ht ht', h.wouldCreateCycle_eq hc hd]

theorem wireUp_eq_error_iff (h : c.Alike d) (loopsAllowed : Bool) (source target : ComponentId)
    (slot : Nat) (reason : WiringError) :
    d.wireUp loopsAllowed source target slot = .error reason ↔
      c.wireUp loopsAllowed source target slot = .error reason := by
  unfold wireUp
  rw [h.objection?_eq hc hd]
  cases c.objection? loopsAllowed source target slot <;> simp

end Wired

end Alike

end Circuit

end LogicCircuit
