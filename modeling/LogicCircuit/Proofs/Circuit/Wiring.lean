import LogicCircuit.Proofs.Circuit.Naming
import Mathlib.Data.Set.Function

/-!
# The two records of a wire

A wire is recorded among the wires and on the slot that it ends on. `Circuit.WellWired` says that
the two records agree, that components have the shape of their kind, and that a wire leads from a
source or gate to another component. The look-up lemmas say what each edit leaves behind;
with them every edit keeps a circuit well wired, also one that removes many wires at once.
`WellWired.disconnect` and `WellWired.attach` carry the argument: a wire leaves both records
or enters both.
-/

namespace LogicCircuit

namespace Component

/-- A component has a slot for each input of its kind, and a sink a bit for each of them. -/
structure WellFormed (x : Component) : Prop where
  /-- There are as many slots as inputs. -/
  slots : x.slots.length = x.kind.arity
  /-- A sink holds as many bits as it has inputs. -/
  bits : ∀ s, x.kind = .sink s → s.bits.length = s.kind.arity

instance (x : Component) : Decidable x.WellFormed :=
  decidable_of_iff (x.slots.length = x.kind.arity ∧
      x.kind.sink?.all fun s => s.bits.length = s.kind.arity)
    ⟨fun h => ⟨h.1, fun s hs => by simpa [hs, Kind.sink?] using h.2⟩,
      fun h => ⟨h.slots, by
        cases hk : x.kind with
        | gate g => rfl
        | source s => rfl
        | sink s => simpa [Kind.sink?] using h.bits s hk⟩⟩

/-- The component with a wire taken off its slots. -/
def without (wire : WireId) (x : Component) : Component :=
  { x with slots := x.slots.map fun s => if s = some wire then none else s }

/-- A slot holds a wire after another was taken off exactly if it held it before. -/
theorem getElem?_slots_without {wire k : WireId} {x : Component} {i : Nat} :
    (x.without wire).slots[i]? = some (some k) ↔ x.slots[i]? = some (some k) ∧ k ≠ wire := by
  simp only [without, List.getElem?_map, Option.map_eq_some_iff]
  constructor
  · rintro ⟨s, hs, hk⟩
    split at hk
    · cases hk
    · subst hk
      exact ⟨hs, fun e => by simp_all⟩
  · rintro ⟨hs, hne⟩
    exact ⟨some k, hs, by simp [hne]⟩

theorem WellFormed.without {x : Component} (h : x.WellFormed) (wire : WireId) :
    (x.without wire).WellFormed :=
  ⟨by simpa [Component.without] using h.slots, h.bits⟩

theorem WellFormed.plug {x : Component} (h : x.WellFormed) (slot : Nat) (wire : Option WireId) :
    (x.plug slot wire).WellFormed :=
  ⟨by simpa [Component.plug] using h.slots, h.bits⟩

/-- What is on the slots after a wire was put on one of them. -/
theorem getElem?_slots_plug {x : Component} {slot i : Nat} {new k : WireId} :
    (x.plug slot (some new)).slots[i]? = some (some k) ↔
      i = slot ∧ k = new ∧ slot < x.slots.length ∨ i ≠ slot ∧ x.slots[i]? = some (some k) := by
  simp only [plug, List.getElem?_set]
  by_cases hi : slot = i
  · subst hi
    by_cases hlt : slot < x.slots.length <;> simp [hlt, eq_comm]
  · simp [hi, Ne.symm hi]

theorem WellFormed.unplugged {x : Component} (h : x.WellFormed) : x.unplugged.WellFormed :=
  ⟨by simpa [Component.unplugged] using h.slots, h.bits⟩

theorem WellFormed.withId {x : Component} (h : x.WellFormed) (id : ComponentId) :
    (x.withId id).WellFormed :=
  ⟨h.slots, h.bits⟩

/-- No wire is on a slot that was cleared. -/
theorem getElem?_slots_unplugged (x : Component) (i : Nat) (k : WireId) :
    x.unplugged.slots[i]? ≠ some (some k) := by
  intro h
  simp only [unplugged, List.getElem?_map, Option.map_eq_some_iff] at h
  obtain ⟨_, _, h⟩ := h
  cases h

/-- A wire that is on no slot of a component can be taken off without a trace. -/
theorem without_eq_self {wire : WireId} {x : Component}
    (h : ∀ i : Nat, x.slots[i]? ≠ some (some wire)) : x.without wire = x := by
  have hslots : x.slots.map (fun s => if s = some wire then none else s) = x.slots := by
    refine List.ext_getElem? fun i => ?_
    rw [List.getElem?_map]
    cases hs : x.slots[i]? with
    | none => rfl
    | some s =>
        have hne : s ≠ some wire := fun e => h i (by rw [hs, e])
        simp [hne]
  simp only [without, hslots]

/-- A wire that is on one slot alone is taken off by clearing that slot. -/
theorem without_eq_plug {wire : WireId} {x : Component} {slot : Nat}
    (hslot : x.slots[slot]? = some (some wire))
    (honly : ∀ i : Nat, x.slots[i]? = some (some wire) → i = slot) :
    x.without wire = x.plug slot none := by
  have hslots : x.slots.map (fun s => if s = some wire then none else s) =
      x.slots.set slot none := by
    refine List.ext_getElem? fun i => ?_
    rw [List.getElem?_map, List.getElem?_set]
    by_cases hi : slot = i
    · subst hi
      have hlt : slot < x.slots.length := (List.getElem?_eq_some_iff.1 hslot).1
      rw [if_pos rfl, if_pos hlt, hslot]
      simp
    · rw [if_neg hi]
      cases hs : x.slots[i]? with
      | none => rfl
      | some s =>
          have hne : s ≠ some wire := fun e => hi (honly i (by rw [hs, e])).symm
          simp [hne]
  simp only [without, plug, hslots]

end Component

namespace Circuit

/-- Both records of each wire exist and agree, and every component has the shape of its kind. -/
structure WellWired (c : Circuit) : Prop where
  /-- Every component is well formed. -/
  formed : ∀ {id x}, c.component? id = some x → x.WellFormed
  /-- A wire comes from a component that has an output. -/
  source : ∀ {k w}, c.wire? k = some w → ∃ s, c.component? w.source = some s ∧ ¬ s.kind.isSink
  /-- A wire is on the slot that it ends on. -/
  target : ∀ {k w}, c.wire? k = some w →
    ∃ t, c.component? w.target = some t ∧ t.slots[w.slot]? = some (some k)
  /-- A wire joins two different components. -/
  distinct : ∀ {k w}, c.wire? k = some w → w.source ≠ w.target
  /-- A wire on a slot exists and ends there. -/
  slot : ∀ {id x i k}, c.component? id = some x → x.slots[i]? = some (some k) →
    ∃ w, c.wire? k = some w ∧ w.target = id ∧ w.slot = i

variable {c : Circuit} {id source target : ComponentId} {k : WireId} {w : Wire} {x : Component}

/-- The circuit without components is well wired. -/
theorem WellWired.empty : Circuit.empty.WellWired where
  formed h := by cases h
  source h := by cases h
  target h := by cases h
  distinct h := by cases h
  slot h := by cases h

/-- Only the components and the wires matter. -/
theorem WellWired.congr {d : Circuit} (h : c.WellWired)
    (hcomponents : d.components = c.components) (hwires : d.wires = c.wires) : d.WellWired := by
  obtain ⟨components, wires, lastNumber, revision⟩ := d
  subst hcomponents hwires
  exact ⟨h.formed, h.source, h.target, h.distinct, h.slot⟩

/-! ## Removing a wire -/

/-- What a look-up finds after a wire was removed: components lose it from their slots. -/
theorem component?_disconnect (h : c.WellWired) (k : WireId) (a : ComponentId) :
    (c.disconnect k).component? a = (c.component? a).map (·.without k) := by
  -- the wire is on one slot at most, so a component that it does not end on never names it
  have hfar : ∀ {a x}, c.component? a = some x → (∀ w, c.wire? k = some w → w.target ≠ a) →
      x.without k = x := fun hx hne => Component.without_eq_self fun i hi => by
    obtain ⟨w, hw, htarget, _⟩ := h.slot hx hi
    exact hne w hw htarget
  unfold disconnect disconnect?
  cases hw : c.wire? k with
  | none =>
      cases hx : c.component? a with
      | none => simp [hx]
      | some x => simp [hx, hfar hx fun w hw' => by simp [hw] at hw']
  | some w =>
      simp only [Option.map_some, Option.getD_some, component?, Roster.get?_modify]
      split
      case isTrue ha =>
        subst ha
        obtain ⟨t, ht, hslot⟩ := h.target hw
        have honly : ∀ i : Nat, t.slots[i]? = some (some k) → i = w.slot := fun i hi => by
          obtain ⟨w', hw', _, hi'⟩ := h.slot ht hi
          obtain rfl := Option.some.inj (hw.symm.trans hw')
          exact hi'.symm
        simp only [component?] at ht
        simp [ht, hslot, Component.without_eq_plug hslot honly]
      case isFalse ha =>
        cases hx : c.components.get? a with
        | none => rfl
        | some x =>
            have hself := hfar hx fun w' hw' e => by
              obtain rfl := Option.some.inj (hw.symm.trans hw')
              exact ha e.symm
            rw [Option.map_some, hself]

/-- What a look-up finds after a wire was removed: all the others. -/
theorem wire?_disconnect (c : Circuit) (k j : WireId) :
    (c.disconnect k).wire? j = if j = k then none else c.wire? j := by
  unfold disconnect disconnect?
  cases hw : c.wire? k with
  | none =>
      by_cases hj : j = k
      · simp [hj, hw]
      · simp [hj]
  | some w => simp only [Option.map_some, Option.getD_some, wire?, Roster.get?_erase]

/-- The wires that are left are the others. -/
theorem wire?_disconnect_eq_some_iff {j : WireId} :
    (c.disconnect k).wire? j = some w ↔ j ≠ k ∧ c.wire? j = some w := by
  rw [wire?_disconnect]
  split
  case isTrue hj => simp [hj]
  case isFalse hj => simp [hj]

/-- A removed wire leaves both records. -/
theorem WellWired.disconnect (h : c.WellWired) (k : WireId) : (c.disconnect k).WellWired where
  formed hx := by
    rw [component?_disconnect h, Option.map_eq_some_iff] at hx
    obtain ⟨x, hx, rfl⟩ := hx
    exact (h.formed hx).without k
  source hw := by
    obtain ⟨s, hs, hout⟩ := h.source (wire?_disconnect_eq_some_iff.1 hw).2
    exact ⟨s.without k, by rw [component?_disconnect h, hs]; rfl, hout⟩
  target hw := by
    obtain ⟨hne, hw⟩ := wire?_disconnect_eq_some_iff.1 hw
    obtain ⟨t, ht, hslot⟩ := h.target hw
    refine ⟨t.without k, by rw [component?_disconnect h, ht]; rfl, ?_⟩
    exact Component.getElem?_slots_without.2 ⟨hslot, hne⟩
  distinct hw := h.distinct (wire?_disconnect_eq_some_iff.1 hw).2
  slot hx hslot := by
    rw [component?_disconnect h, Option.map_eq_some_iff] at hx
    obtain ⟨x, hx, rfl⟩ := hx
    obtain ⟨hslot, hne⟩ := Component.getElem?_slots_without.1 hslot
    obtain ⟨w, hw, hend⟩ := h.slot hx hslot
    exact ⟨w, wire?_disconnect_eq_some_iff.2 ⟨hne, hw⟩, hend⟩

/-- Wires can be removed one after another. -/
theorem WellWired.disconnectAll (h : c.WellWired) (ks : List WireId) :
    (ks.foldl Circuit.disconnect c).WellWired := by
  induction ks generalizing c with
  | nil => exact h
  | cons k ks ih => exact ih (h.disconnect k)

/-- What a look-up finds after several wires were removed. -/
theorem wire?_disconnectAll (c : Circuit) (ks : List WireId) (j : WireId) :
    (ks.foldl disconnect c).wire? j = if j ∈ ks then none else c.wire? j := by
  induction ks generalizing c with
  | nil => simp
  | cons k ks ih =>
      rw [List.foldl_cons, ih, wire?_disconnect]
      by_cases hj : j = k <;> simp [hj]

/-! ## Removing and adding a component -/

/-- The wires at a component are those that start or end there. -/
theorem mem_incident_iff {c : Circuit} {id : ComponentId} {k : WireId} :
    k ∈ c.incident id ↔ ∃ w, c.wire? k = some w ∧ (w.source = id ∨ w.target = id) := by
  simp only [incident, List.mem_map, List.mem_filter, Bool.or_eq_true, beq_iff_eq]
  constructor
  · rintro ⟨w, ⟨hw, hend⟩, rfl⟩
    exact ⟨w, Roster.mem_entries_iff.1 hw, hend⟩
  · rintro ⟨w, hw, hend⟩
    obtain ⟨hmem, rfl⟩ := Roster.get?_eq_some_iff.1 hw
    exact ⟨w, ⟨hmem, hend⟩, rfl⟩

/-- A component without wires can go. -/
theorem WellWired.erase (h : c.WellWired)
    (hbare : ∀ {k w}, c.wire? k = some w → w.source ≠ id ∧ w.target ≠ id) (n : Nat) :
    ({ c with components := c.components.erase id, revision := n } : Circuit).WellWired := by
  have hkeep : ∀ {a}, a ≠ id → (c.components.erase id).get? a = c.component? a := fun ha => by
    rw [Roster.get?_erase, if_neg ha]
    rfl
  have hwas : ∀ {a x}, (c.components.erase id).get? a = some x → c.component? a = some x :=
    fun {a x} hx => by
      rw [Roster.get?_erase] at hx
      split at hx
      · cases hx
      · exact hx
  refine ⟨fun hx => h.formed (hwas hx), fun hw => ?_, fun hw => ?_, h.distinct,
    fun hx hslot => ?_⟩
  · obtain ⟨s, hs, hout⟩ := h.source hw
    exact ⟨s, (hkeep (hbare hw).1).trans hs, hout⟩
  · obtain ⟨t, ht, hslot⟩ := h.target hw
    exact ⟨t, (hkeep (hbare hw).2).trans ht, hslot⟩
  · exact h.slot (hwas hx) hslot

/-- What a look-up finds after a component was removed: the wires elsewhere. -/
theorem wire?_remove (c : Circuit) (id : ComponentId) (j : WireId) :
    (c.remove id).wire? j =
      if c.components.contains id ∧ j ∈ c.incident id then none else c.wire? j := by
  unfold remove remove?
  by_cases hid : c.components.contains id
  · simp only [hid, if_true, Option.getD_some, true_and]
    exact wire?_disconnectAll c (c.incident id) j
  · simp [hid]

theorem wire?_of_remove {j : WireId} (hw : (c.remove id).wire? j = some w) :
    c.wire? j = some w := by
  rw [wire?_remove] at hw
  split at hw
  · cases hw
  · exact hw

/-- A removed component is gone. -/
theorem component?_remove_self (c : Circuit) (id : ComponentId) :
    (c.remove id).component? id = none := by
  unfold remove remove?
  by_cases hid : c.components.contains id
  · simp [hid, component?, Roster.get?_erase]
  · rw [if_neg hid]
    simpa [Roster.contains, component?] using hid

/-- A removed component takes its wires along. -/
theorem WellWired.remove (h : c.WellWired) (id : ComponentId) : (c.remove id).WellWired := by
  unfold Circuit.remove remove?
  by_cases hid : c.components.contains id
  · simp only [hid, if_true, Option.getD_some]
    refine (h.disconnectAll (c.incident id)).erase (fun {k w} hw => ?_) _
    rw [wire?_disconnectAll] at hw
    split at hw
    · cases hw
    · rename_i hnot
      -- a wire that is left was not among those at the component
      have hend : ¬ (w.source = id ∨ w.target = id) := fun hend =>
        hnot (mem_incident_iff.2 ⟨w, hw, hend⟩)
      exact not_or.1 hend
  · simpa [hid] using h

/-- A new component has nothing on its slots, so it may be placed under a free name. -/
theorem WellWired.place (h : c.WellWired) (hx : x.WellFormed) (hfree : c.component? x.id = none) :
    (c.place x).WellWired := by
  have hlook : ∀ a, (c.place x).component? a =
      if x.id = a then some x.unplugged else c.component? a := fun a =>
     Roster.get?_insert c.components x.unplugged a
  have hkeep : ∀ {a y}, c.component? a = some y → (c.place x).component? a = some y :=
    fun {a y} hy => by
      have hne : x.id ≠ a := fun e => by simp [← e, hfree] at hy
      rw [hlook, if_neg hne, hy]
  refine ⟨fun hy => ?_, fun hw => ?_, fun hw => ?_, h.distinct, fun hy hslot => ?_⟩
  · rw [hlook] at hy
    split at hy
    · obtain rfl := Option.some.inj hy
      exact hx.unplugged
    · exact h.formed hy
  · obtain ⟨s, hs, hout⟩ := h.source hw
    exact ⟨s, hkeep hs, hout⟩
  · obtain ⟨t, ht, hslot⟩ := h.target hw
    exact ⟨t, hkeep ht, hslot⟩
  · rw [hlook] at hy
    split at hy
    · obtain rfl := Option.some.inj hy
      exact absurd hslot (Component.getElem?_slots_unplugged x _ _)
    · exact h.slot hy hslot

/-- A component is added under a new name, or in place of the one that has its name. -/
theorem WellWired.add (h : c.WellWired) (hx : x.WellFormed) : (c.add x).2.WellWired := by
  unfold Circuit.add
  split
  · set n := c.freshComponentNumber x.kind.category
    have hbase : ({ c with lastNumber := n } : Circuit).WellWired := h.congr rfl rfl
    exact hbase.place (hx.withId _) (component?_freshComponentNumber c x.kind.category)
  · exact (h.remove x.id).place hx (component?_remove_self c x.id)

theorem wire?_of_add {j : WireId} (hw : (c.add x).2.wire? j = some w) : c.wire? j = some w := by
  unfold Circuit.add at hw
  split at hw
  · exact hw
  · exact wire?_of_remove hw

/-- Without components there are no wires either. -/
theorem WellWired.clear (c : Circuit) : c.clear.WellWired :=
  WellWired.empty.congr rfl rfl

/-! ## Adding a wire -/

/-- A slot is freed by removing the wire on it, or is free already. -/
theorem free_cases (c : Circuit) (target : ComponentId) (slot : Nat) :
    (∃ t k, c.component? target = some t ∧ t.slots[slot]? = some (some k) ∧
      c.free target slot = c.disconnect k) ∨
    (∀ {t k}, c.component? target = some t → t.slots[slot]? ≠ some (some k)) ∧
      c.free target slot = c := by
  unfold free
  cases ht : c.component? target with
  | none => exact .inr ⟨fun h => (nomatch h), rfl⟩
  | some t =>
      cases hs : t.slots[slot]? with
      | none => exact .inr ⟨by rintro _ k ⟨⟩; simp [hs], by simp [hs]⟩
      | some s =>
          cases s with
          | none => exact .inr ⟨by rintro _ k ⟨⟩; simp [hs], by simp [hs]⟩
          | some k => exact .inl ⟨t, k, rfl, hs, by simp [hs]⟩

theorem WellWired.free (h : c.WellWired) (target : ComponentId) (slot : Nat) :
    (c.free target slot).WellWired := by
  rcases free_cases c target slot with ⟨_, k, _, _, hfree⟩ | ⟨_, hfree⟩ <;> rw [hfree]
  · exact h.disconnect k
  · exact h

theorem wire?_of_free {slot : Nat} {j : WireId}
    (hw : (c.free target slot).wire? j = some w) : c.wire? j = some w := by
  rcases free_cases c target slot with ⟨_, _, _, _, hfree⟩ | ⟨_, hfree⟩ <;> rw [hfree] at hw
  · exact (wire?_disconnect_eq_some_iff.1 hw).2
  · exact hw

/-- A slot that was freed is empty. -/
theorem slot_free (h : c.WellWired) {slot : Nat} {t : Component}
    (ht : (c.free target slot).component? target = some t) : t.slots[slot]? ≠ some (some k) := by
  rcases free_cases c target slot with ⟨t', j, ht', hslot, hfree⟩ | ⟨hempty, hfree⟩
  · rw [hfree, component?_disconnect h, ht', Option.map_some, Option.some.injEq] at ht
    subst ht
    intro hk
    obtain ⟨hk, hne⟩ := Component.getElem?_slots_without.1 hk
    exact hne (Option.some.inj (Option.some.inj (hk.symm.trans hslot)))
  · rw [hfree] at ht
    exact hempty ht

/-- Freeing a slot changes no component but for the wires on it. -/
theorem component?_free (h : c.WellWired) (target : ComponentId) (slot : Nat) {a : ComponentId}
    (hx : c.component? a = some x) : ∃ y, (c.free target slot).component? a = some y ∧
      y.kind = x.kind ∧ y.slots.length = x.slots.length := by
  rcases free_cases c target slot with ⟨_, k, _, _, hfree⟩ | ⟨_, hfree⟩ <;> rw [hfree]
  · exact ⟨x.without k, by rw [component?_disconnect h, hx]; rfl, rfl,
      by simp [Component.without]⟩
  · exact ⟨x, hx, rfl, rfl⟩

/-- What a look-up finds after a wire was attached: the component with its slot set. -/
theorem component?_attach (c : Circuit) (source target : ComponentId) (slot : Nat)
    (a : ComponentId) :
    (c.attach source target slot).2.component? a = (c.component? a).map fun x =>
      if a = target then x.plug slot (some (wireName c.freshWireNumber)) else x := by
  have hlook := Roster.get?_modify c.components target
    (fun x => x.plug slot (some (wireName c.freshWireNumber))) (fun _ => rfl) a
  refine hlook.trans ?_
  split
  · rfl
  · exact (Option.map_id' (x := c.components.get? a)).symm

/-- What a look-up finds after a wire was attached: one more wire. -/
theorem wire?_attach (c : Circuit) (source target : ComponentId) (slot : Nat) (j : WireId) :
    (c.attach source target slot).2.wire? j =
      if wireName c.freshWireNumber = j then
        some ⟨wireName c.freshWireNumber, source, target, slot⟩
      else c.wire? j :=
  Roster.get?_insert ..

/-- A wire that is found after one was attached is the new one or was there before. -/
theorem wire?_attach_cases {slot : Nat} {j : WireId}
    (hw : (c.attach source target slot).2.wire? j = some w) :
    j = wireName c.freshWireNumber ∧ w = ⟨wireName c.freshWireNumber, source, target, slot⟩ ∨
      c.wire? j = some w := by
  rw [wire?_attach] at hw
  split at hw
  case isTrue hj => exact .inl ⟨hj.symm, (Option.some.inj hw).symm⟩
  case isFalse => exact .inr hw

/-- The wires that were there before are still found, because the new one has a new name. -/
theorem wire?_attach_of_wire? {slot : Nat} {j : WireId} (hw : c.wire? j = some w) :
    (c.attach source target slot).2.wire? j = some w := by
  have hne : wireName c.freshWireNumber ≠ j := by
    intro e
    rw [← e, wire?_freshWireNumber] at hw
    cases hw
  rw [wire?_attach, if_neg hne, hw]

/-- A new wire enters both records. -/
theorem WellWired.attach (h : c.WellWired) {s t : Component} {slot : Nat}
    (hs : c.component? source = some s) (hout : ¬ s.kind.isSink) (hne : source ≠ target)
    (ht : c.component? target = some t) (hlt : slot < t.slots.length)
    (hempty : ∀ k, t.slots[slot]? ≠ some (some k)) :
    (c.attach source target slot).2.WellWired := by
  have hlook := component?_attach c source target slot
  -- no old wire ends on the slot, so setting it takes none of them out of the second record
  have hold : ∀ {k w}, c.wire? k = some w → ¬ (w.target = target ∧ w.slot = slot) := by
    rintro k w hw ⟨htarget, hslot⟩
    obtain ⟨t', ht', hk⟩ := h.target hw
    rw [htarget, ht, Option.some.injEq] at ht'
    subst ht'
    exact hempty k (hslot ▸ hk)
  refine ⟨?formed, ?source, ?target, ?distinct, ?slot⟩
  case formed =>
    intro a y hy
    rw [hlook, Option.map_eq_some_iff] at hy
    obtain ⟨x, hx, rfl⟩ := hy
    split
    · exact (h.formed hx).plug _ _
    · exact h.formed hx
  case source =>
    intro k w hw
    rcases wire?_attach_cases hw with ⟨_, rfl⟩ | hw
    · exact ⟨s, by rw [hlook, hs]; simp [hne], hout⟩
    · obtain ⟨s', hs', hout'⟩ := h.source hw
      refine ⟨_, by rw [hlook, hs']; rfl, ?_⟩
      split <;> exact hout'
  case target =>
    intro k w hw
    rcases wire?_attach_cases hw with ⟨rfl, rfl⟩ | hw
    · refine ⟨t.plug slot (some (wireName c.freshWireNumber)), by rw [hlook, ht]; simp, ?_⟩
      exact Component.getElem?_slots_plug.2 (.inl ⟨rfl, rfl, hlt⟩)
    · obtain ⟨t', ht', hk⟩ := h.target hw
      refine ⟨_, by rw [hlook, ht']; rfl, ?_⟩
      split
      case isTrue htarget =>
        exact Component.getElem?_slots_plug.2 (.inr ⟨fun e => hold hw ⟨htarget, e⟩, hk⟩)
      case isFalse => exact hk
  case distinct =>
    intro k w hw
    rcases wire?_attach_cases hw with ⟨_, rfl⟩ | hw
    · exact hne
    · exact h.distinct hw
  case slot =>
    have hkeep : ∀ {a x i k}, c.component? a = some x → x.slots[i]? = some (some k) →
        ∃ w, (c.attach source target slot).2.wire? k = some w ∧ w.target = a ∧ w.slot = i := by
      intro a x i k hx hk
      obtain ⟨w, hw, hend⟩ := h.slot hx hk
      exact ⟨w, wire?_attach_of_wire? hw, hend⟩
    intro a y i k hy hk
    rw [hlook, Option.map_eq_some_iff] at hy
    obtain ⟨x, hx, rfl⟩ := hy
    split at hk
    case isTrue ha =>
      rcases Component.getElem?_slots_plug.1 hk with ⟨rfl, rfl, _⟩ | ⟨_, hk⟩
      · exact ⟨_, by rw [wire?_attach, if_pos rfl], ha.symm, rfl⟩
      · exact hkeep hx hk
    case isFalse => exact hkeep hx hk

/-- A wire is accepted between two components, from one with an output to an existing slot. -/
theorem objection?_eq_none {c : Circuit} {loopsAllowed : Bool} {source target : ComponentId}
    {slot : Nat} (h : c.objection? loopsAllowed source target slot = none) :
    ∃ s t, c.component? source = some s ∧ c.component? target = some t ∧ source ≠ target ∧
      ¬ s.kind.isSink ∧ slot < t.slots.length ∧
      (loopsAllowed = false → c.wouldCreateCycle source target = false) := by
  unfold objection? at h
  cases hs : c.component? source with
  | none => simp [hs] at h
  | some s =>
      cases ht : c.component? target with
      | none => simp [hs, ht] at h
      | some t =>
          simp only [hs, ht] at h
          split at h
          · cases h
          split at h
          · cases h
          split at h
          · cases h
          split at h
          · cases h
          rename_i hne hout hslot hloop
          refine ⟨s, t, rfl, rfl, hne, hout, Nat.not_le.1 hslot, fun hno => ?_⟩
          simpa [hno] using hloop

/-- What a successful connection is: nothing objected, the slot was freed and the wire attached.
-/
theorem wireUp_eq_ok {c d : Circuit} {loopsAllowed : Bool} {source target : ComponentId}
    {slot : Nat} {new : WireId} (h : c.wireUp loopsAllowed source target slot = .ok (new, d)) :
    c.objection? loopsAllowed source target slot = none ∧
      d = ((c.free target slot).attach source target slot).2 := by
  unfold wireUp at h
  split at h
  · cases h
  · rename_i hnone
    rw [Except.ok.injEq] at h
    exact ⟨hnone, by rw [h]⟩

/-- Connecting keeps a circuit well wired, whether or not loops are allowed. -/
theorem WellWired.wireUp (h : c.WellWired) {d : Circuit} {loopsAllowed : Bool} {slot : Nat}
    (hd : c.wireUp loopsAllowed source target slot = .ok (k, d)) : d.WellWired := by
  obtain ⟨hnone, rfl⟩ := wireUp_eq_ok hd
  obtain ⟨s, t, hs, ht, hne, hout, hlt, _⟩ := objection?_eq_none hnone
  obtain ⟨s', hs', hskind, _⟩ := component?_free h target slot hs
  obtain ⟨t', ht', _, hlen⟩ := component?_free h target slot ht
  exact (h.free target slot).attach hs' (hskind ▸ hout) hne ht' (hlen ▸ hlt) fun _ =>
    slot_free h ht'

/-! ## What follows for the whole circuit -/

/-- A circuit that is well wired passes its own check. -/
theorem WellWired.consistent (h : c.WellWired) : c.Consistent := by
  constructor
  · intro w hw
    have hw := Roster.mem_entries_iff.1 hw
    obtain ⟨s, hs, _⟩ := h.source hw
    obtain ⟨t, ht, hslot⟩ := h.target hw
    exact ⟨by rw [hs]; rfl, t, ht, hslot⟩
  · rintro x hx ⟨slot, i⟩ hp k hk
    have hx := Roster.mem_entries_iff.1 hx
    have hslot : x.slots[i]? = some (some k) := by
      rw [List.mem_zipIdx_iff_getElem?.1 hp]
      exact congrArg some hk
    obtain ⟨w, hw, hend⟩ := h.slot hx hslot
    exact ⟨w, hw, hend⟩

/-- The wires of a circuit. -/
def wireSet (c : Circuit) : Set Wire := {w | c.wire? w.id = some w}

/-- What a name of a wire finds is a wire of the circuit. -/
theorem mem_wireSet (hw : c.wire? k = some w) : w ∈ c.wireSet := by
  have hid : w.id = k := Roster.name_of_get? hw
  exact (congrArg c.wire? hid).trans hw

/-- The slots of a circuit that a wire is on, each with its component. -/
def wiredSlots (c : Circuit) : Set (ComponentId × Nat) :=
  {p | ∃ x k, c.component? p.1 = some x ∧ x.slots[p.2]? = some (some k)}

/-- The wires and the slots with wires on them correspond one to one. -/
theorem WellWired.bijOn (h : c.WellWired) :
    Set.BijOn (fun w : Wire => (w.target, w.slot)) c.wireSet c.wiredSlots := by
  refine ⟨fun w hw => ?_, fun w hw v hv hend => ?_, fun p hp => ?_⟩
  · obtain ⟨t, ht, hslot⟩ := h.target hw
    exact ⟨t, w.id, ht, hslot⟩
  · obtain ⟨htarget, hslot⟩ := Prod.mk.inj hend
    obtain ⟨t, ht, hw'⟩ := h.target hw
    obtain ⟨t', ht', hv'⟩ := h.target hv
    rw [← htarget, ht, Option.some.injEq] at ht'
    rw [← ht', ← hslot, hw', Option.some.injEq, Option.some.injEq] at hv'
    exact Option.some.inj (hw.symm.trans ((congrArg c.wire? hv').trans hv))
  · obtain ⟨x, k, hx, hslot⟩ := hp
    obtain ⟨w, hw, htarget, hslot'⟩ := h.slot hx hslot
    exact ⟨w, mem_wireSet hw, Prod.ext htarget hslot'⟩

end Circuit

end LogicCircuit
