import LogicCircuit.Proofs.Circuit.Acyclicity

/-!
# Growing circuits

What a circuit keeps while it grows. A component under a new name (`sameBut_place`) and a wire to
an empty slot (`sameBut_attach`) change a circuit at one component only, and at that one they do
what they say (`driversOf_place`, `driversOf_attach`). The wire is accepted as long as its target
does not lead to its source (`WellWired.connect_eq_attach`).
-/

namespace LogicCircuit

/-- A record under a new name is one more record. -/
theorem Roster.size_insert {α : Type} {name : α → String} {r : Roster name} {x : α}
    (h : r.get? (name x) = none) : (r.insert x).size = r.size + 1 := by
  have hnew : ∀ y ∈ r.entries, name x ≠ name y := by
    intro y hy e
    rw [e, mem_entries_iff.1 hy] at h
    cases h
  have hplace : ∀ ys : List α, (∀ y ∈ ys, name x ≠ name y) →
      (place name x ys).length = ys.length + 1 := by
    intro ys hys
    induction ys with
    | nil => rfl
    | cons y ys ih =>
        rw [place, if_neg (hys y List.mem_cons_self)]
        split
        · rfl
        · rw [List.length_cons, ih fun z hz => hys z (List.mem_cons_of_mem _ hz),
            List.length_cons]
  exact hplace r.entries hnew

namespace Circuit

variable {c d b : Circuit} {id a source target : ComponentId} {x s t : Component} {slot : Nat}

/-! ## Circuits that agree -/

/-- Circuits that look the same everywhere but at one component. -/
structure SameBut (id : ComponentId) (c d : Circuit) : Prop where
  /-- The other components are the same. -/
  component : ∀ {a}, a ≠ id → d.component? a = c.component? a
  /-- The other components have the same drivers. -/
  drivers : ∀ {a}, a ≠ id → d.driversOf a = c.driversOf a

/-- What is in the first circuit is in the second, with the same drivers. -/
structure Extends (c d : Circuit) : Prop where
  /-- The components are found again. -/
  component : ∀ {a x}, c.component? a = some x → d.component? a = some x
  /-- They have the same drivers. -/
  drivers : ∀ {a x}, c.component? a = some x → d.driversOf a = c.driversOf a

theorem SameBut.refl (id : ComponentId) (c : Circuit) : c.SameBut id c :=
  ⟨fun _ => rfl, fun _ => rfl⟩

theorem SameBut.trans (hcd : c.SameBut id d) (hdb : d.SameBut id b) : c.SameBut id b :=
  ⟨fun ha => (hdb.component ha).trans (hcd.component ha),
    fun ha => (hdb.drivers ha).trans (hcd.drivers ha)⟩

/-- A circuit that differs at a new component only is an extension. -/
theorem SameBut.extends (h : c.SameBut id d) (hnew : c.component? id = none) : c.Extends d := by
  have hne : ∀ {a x}, c.component? a = some x → a ≠ id := by
    rintro a x hx rfl
    rw [hnew] at hx
    cases hx
  exact ⟨fun hx => (h.component (hne hx)).trans hx, fun hx => h.drivers (hne hx)⟩

/-- A circuit that differs at a new component only has that component and those of the other. -/
theorem SameBut.perm_entries (h : c.SameBut id d) (hnew : c.component? id = none)
    (hx : d.component? id = some x) :
    d.components.entries.Perm (x :: c.components.entries) := by
  have hid : x.id = id := Roster.name_of_get? hx
  have hnodup : ∀ c : Circuit, c.components.entries.Nodup := fun c => c.nodup_ids.of_map
  have hfresh : x ∉ c.components.entries := fun hmem => by
    have hold : c.component? x.id = some x := Roster.mem_entries_iff.1 hmem
    rw [hid, hnew] at hold
    cases hold
  refine (List.perm_ext_iff_of_nodup (hnodup d) (List.nodup_cons.2 ⟨hfresh, hnodup c⟩)).2
    fun y => ?_
  rw [List.mem_cons, Roster.mem_entries_iff, Roster.mem_entries_iff]
  show d.component? y.id = some y ↔ y = x ∨ c.component? y.id = some y
  by_cases hy : y.id = id
  · rw [hy, hx, hnew]
    simp [eq_comm]
  · rw [h.component hy]
    have hne : y ≠ x := fun hyx => hy (hyx ▸ hid)
    simp [hne]

theorem Extends.refl (c : Circuit) : c.Extends c := ⟨fun h => h, fun _ => rfl⟩

theorem Extends.trans (hcd : c.Extends d) (hdb : d.Extends b) : c.Extends b :=
  ⟨fun hx => hdb.component (hcd.component hx),
    fun hx => (hdb.drivers (hcd.component hx)).trans (hcd.drivers hx)⟩

/-- What is new to an extension is new. -/
theorem Extends.new (h : c.Extends d) (hnew : d.component? id = none) :
    c.component? id = none := by
  cases hx : c.component? id with
  | none => rfl
  | some x => exact absurd (h.component hx) (by simp [hnew])

/-! ## A new component -/

/-- Where the name is new, there is nothing to remove. -/
theorem add_eq_place (hid : x.id ≠ "") (hnew : c.component? x.id = none) :
    c.add x = (x.id, c.place x) := by
  have hremove : c.remove x.id = c := by
    have hcontains : c.components.contains x.id = false := by
      rw [Roster.contains]
      exact congrArg Option.isSome hnew
    simp [remove, remove?, hcontains]
  rw [add, if_neg hid, hremove]

theorem component?_place (c : Circuit) (x : Component) (a : ComponentId) :
    (c.place x).component? a = if x.id = a then some x.unplugged else c.component? a :=
  Roster.get?_insert c.components x.unplugged a

theorem component?_place_self (c : Circuit) (x : Component) :
    (c.place x).component? x.id = some x.unplugged := by
  rw [component?_place, if_pos rfl]

theorem sameBut_place (c : Circuit) (x : Component) : c.SameBut x.id (c.place x) := by
  have hlook : ∀ {a}, a ≠ x.id → (c.place x).component? a = c.component? a := fun ha => by
    rw [component?_place, if_neg ha.symm]
  refine ⟨hlook, fun {a} ha => ?_⟩
  have hdriver : (c.place x).driver? = c.driver? := rfl
  rw [driversOf, driversOf, hlook ha, hdriver]

/-- Nothing drives a new component. -/
theorem driversOf_place (c : Circuit) (x : Component) :
    (c.place x).driversOf x.id = List.replicate x.slots.length none := by
  rw [driversOf_of_component? (component?_place_self c x), Component.unplugged, List.map_map]
  exact List.map_const'

theorem size_place (hnew : c.component? x.id = none) :
    (c.place x).components.size = c.components.size + 1 :=
  Roster.size_insert hnew

/-! ## A new wire -/

/-- A slot without a driver is empty. -/
theorem WellWired.slot_of_driversOf (h : c.WellWired) (ht : c.component? target = some t)
    (hnone : (c.driversOf target)[slot]? = some none) : t.slots[slot]? = some none := by
  rw [driversOf_of_component? ht, List.getElem?_map, Option.map_eq_some_iff] at hnone
  obtain ⟨wire, hwire, hdriver⟩ := hnone
  cases wire with
  | none => exact hwire
  | some k =>
      obtain ⟨w, hw, _⟩ := h.slot ht hwire
      simp [driver?, hw] at hdriver

/-- Nothing is reached from a component that no wire leaves. -/
theorem not_reaches_of_idle (hidle : ∀ k w, c.wire? k = some w → w.source ≠ target)
    (hne : source ≠ target) : ¬ c.readerGraph.Reaches target source := by
  have hnext : ∀ a, a ∉ c.readerGraph.next target := by
    intro a ha
    obtain ⟨k, w, hw, hsource, _⟩ := mem_next_readerGraph_iff.1 ha
    exact hidle k w hw hsource
  rintro (heq | hpath)
  · exact hne heq.symm
  · cases hpath with
    | edge ha => exact hnext _ ha
    | cons ha => exact hnext _ ha

/-- A wire to an empty slot is accepted if its target does not lead to its source. -/
theorem WellWired.connect_eq_attach (h : c.WellWired) (hs : c.component? source = some s)
    (hout : ¬ s.kind.isSink) (ht : c.component? target = some t)
    (hslot : t.slots[slot]? = some none) (hback : ¬ c.readerGraph.Reaches target source) :
    c.connect source target slot = .ok (c.attach source target slot) := by
  have hne : source ≠ target := by
    rintro rfl
    exact hback (.refl _ _)
  have hlt : slot < t.slots.length := (List.getElem?_eq_some_iff.1 hslot).1
  have hcycle : c.wouldCreateCycle source target = false := by
    rwa [← Bool.not_eq_true, wouldCreateCycle_iff h]
  have hnone : c.objection? false source target slot = none := by
    simp [objection?, hs, ht, hne, hout, hcycle, Component.arity, hlt]
  have hfree : c.free target slot = c := by
    simp [Circuit.free, ht, hslot]
  rw [connect, Circuit.wireUp, hnone, hfree]

/-- The wires that were there before still come from where they came from. -/
theorem WellWired.driver?_attach (h : c.WellWired) (source target : ComponentId) (slot : Nat)
    (hx : c.component? a = some x) {wire : Option WireId} (hwire : wire ∈ x.slots) :
    (c.attach source target slot).2.driver? wire = c.driver? wire := by
  cases wire with
  | none => rfl
  | some k =>
      obtain ⟨i, hi⟩ := List.mem_iff_getElem?.1 hwire
      obtain ⟨w, hw, _⟩ := h.slot hx hi
      simp [driver?, hw, wire?_attach_of_wire? hw]

theorem WellWired.sameBut_attach (h : c.WellWired) (source target : ComponentId) (slot : Nat) :
    c.SameBut target (c.attach source target slot).2 := by
  have hlook : ∀ {a}, a ≠ target →
      (c.attach source target slot).2.component? a = c.component? a := fun ha => by
    simp [component?_attach, ha]
  refine ⟨hlook, fun {a} ha => ?_⟩
  cases hx : c.component? a with
  | none => simp [driversOf, hlook ha, hx]
  | some x =>
      rw [driversOf_of_component? hx, driversOf_of_component? ((hlook ha).trans hx)]
      exact List.map_congr_left fun wire hwire => h.driver?_attach _ _ _ hx hwire

/-- A new wire leaves its target what it is. -/
theorem component?_attach_target (ht : c.component? target = some t) :
    (c.attach source target slot).2.component? target =
      some (t.plug slot (some (wireName c.freshWireNumber))) := by
  simp [component?_attach, ht]

/-- A new wire drives the slot that it ends on. -/
theorem WellWired.driversOf_attach (h : c.WellWired) (ht : c.component? target = some t) :
    (c.attach source target slot).2.driversOf target =
      (c.driversOf target).set slot (some source) := by
  have hnew : (c.attach source target slot).2.driver? (some (wireName c.freshWireNumber)) =
      some source := by
    simp [driver?, wire?_attach]
  have hold := List.map_congr_left fun wire hwire => h.driver?_attach source target slot ht hwire
  rw [driversOf_of_component? (component?_attach_target ht), driversOf_of_component? ht,
    Component.plug, List.map_set, hnew, hold]

theorem size_attach (c : Circuit) (source target : ComponentId) (slot : Nat) :
    (c.attach source target slot).2.components.size = c.components.size :=
  List.length_map _

end Circuit

end LogicCircuit
