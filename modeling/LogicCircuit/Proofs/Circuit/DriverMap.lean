import LogicCircuit.Proofs.Circuit.Growth
import Mathlib.Data.Set.Card

/-!
# Circuits as driver maps

A circuit stores each wire twice and under a name. What matters is less: which components there
are and what drives each slot. `DriverMap` is just that, with the obvious operations, and
`Circuit.plain` reads it off a circuit. The main result `store_refines_driver_map` says that every
operation on a reachable circuit does to the driver map what its counterpart there does, and that
an operation that is refused does nothing at all.

In a well-wired circuit an entry of the driver map is a wire (`WellWired.plain_driver_iff`), so
each operation is compared by what it does to the wires.
-/

namespace LogicCircuit

/-- The components, each with nothing on its slots, and the component that drives each slot. -/
@[ext] structure DriverMap where
  /-- The component of a name. -/
  component : ComponentId → Option Component
  /-- What drives a slot of a component. -/
  driver : ComponentId → Nat → Option ComponentId

namespace DriverMap

/-- No components and no drivers. -/
def empty : DriverMap := ⟨fun _ => none, fun _ _ => none⟩

/-- A slot is driven by a component, in place of whatever drove it. -/
def drive (m : DriverMap) (source target : ComponentId) (slot : Nat) : DriverMap :=
  { m with driver := fun a i => if a = target ∧ i = slot then some source else m.driver a i }

/-- Nothing drives a slot. -/
def release (m : DriverMap) (target : ComponentId) (slot : Nat) : DriverMap :=
  { m with driver := fun a i => if a = target ∧ i = slot then none else m.driver a i }

/-- A component is gone, with all slots that are its own or that it drives. -/
def remove (m : DriverMap) (id : ComponentId) : DriverMap where
  component a := if a = id then none else m.component a
  driver a i := if a = id ∨ m.driver a i = some id then none else m.driver a i

/-- A component is there, with nothing on its slots. -/
def insert (m : DriverMap) (x : Component) : DriverMap :=
  { m with component := fun a => if a = x.id then some x.unplugged else m.component a }

/-- The slots that something drives. -/
def entries (m : DriverMap) : Set (ComponentId × Nat) := {p | ∃ a, m.driver p.1 p.2 = some a}

end DriverMap

/-- An edit that the circuit refuses. -/
def Edit.Refused (c : Circuit) : Edit → Prop
  | connectPorts source sourcePort target targetPort =>
      ∃ reason, c.connectPorts source sourcePort target targetPort = .error reason
  | connect source target slot => ∃ reason, c.connect source target slot = .error reason
  | force source target slot => ∃ reason, c.force source target slot = .error reason
  | remove id => c.remove? id = none
  | disconnect wire => c.disconnect? wire = none
  | setLevel id level => c.setLevel? id level = none
  | setSwitch id level => c.setSwitch? id level = none
  | press id pressed => c.press? id pressed = none
  | toggle id => c.toggle? id = none
  | setFrequency id hz => c.setFrequency? id hz = none
  | setLabel id label => c.setLabel? id label = none
  | move id dx dy => c.move? id dx dy = none
  | _ => False

/-- A refused edit changes nothing. An error carries no circuit because there is none to carry:
the checks of `Circuit.objection?`, like those of the ports and of the names, come before every
change, so where one of them objects nothing has been freed or attached yet. -/
theorem Edit.Refused.apply_eq {c : Circuit} {e : Edit} (h : e.Refused c) : e.apply c = c := by
  cases e <;> simp only [Refused] at h
  case connectPorts | connect | force =>
    obtain ⟨reason, h⟩ := h
    simp only [apply, h, settled]
  case remove | disconnect =>
    simp only [apply, Circuit.remove, Circuit.disconnect, h, Option.getD_none]
  all_goals simp only [apply, h, Option.getD_none]

@[simp] theorem Component.unplugged_without (x : Component) (wire : WireId) :
    (x.without wire).unplugged = x.unplugged := by
  simp [unplugged, without, Function.comp_def]

@[simp] theorem Component.unplugged_plug (x : Component) (slot : Nat) (wire : Option WireId) :
    (x.plug slot wire).unplugged = x.unplugged := by
  simp [unplugged, plug, List.map_const']

namespace Circuit

/-- The driver map of a circuit. -/
def plain (c : Circuit) : DriverMap where
  component id := (c.component? id).map (·.unplugged)
  driver id slot := (c.driversOf id)[slot]?.join

variable {c d : Circuit} {id a source target : ComponentId} {x : Component} {k : WireId}
  {w : Wire} {slot i : Nat}

/-- A slot is driven by what the wire on it comes from. -/
theorem WellWired.plain_driver_iff (h : c.WellWired) :
    c.plain.driver a i = some source ↔
      ∃ k w, c.wire? k = some w ∧ w.source = source ∧ w.target = a ∧ w.slot = i := by
  have hread : c.plain.driver a i = some source ↔
      ∃ x k, c.component? a = some x ∧ x.slots[i]? = some (some k) ∧
        ∃ w, c.wire? k = some w ∧ w.source = source := by
    show (c.driversOf a)[i]?.join = some source ↔ _
    rw [Option.join_eq_some_iff]
    cases hx : c.component? a with
    | none => simp [driversOf, hx]
    | some x =>
        simp only [driversOf_of_component? hx, List.getElem?_map, Option.map_eq_some_iff, driver?,
          Option.bind_eq_some_iff]
        grind
  rw [hread]
  constructor
  · rintro ⟨x, k, hx, hslot, w, hw, hsource⟩
    obtain ⟨w', hw', hend⟩ := h.slot hx hslot
    obtain rfl := Option.some.inj (hw.symm.trans hw')
    exact ⟨k, w, hw, hsource, hend⟩
  · rintro ⟨k, w, hw, hsource, rfl, rfl⟩
    obtain ⟨t, ht, hslot⟩ := h.target hw
    exact ⟨t, k, ht, hslot, w, hw, hsource⟩

/-- The entry of a wire. -/
theorem WellWired.plain_driver (h : c.WellWired) (hw : c.wire? k = some w) :
    c.plain.driver w.target w.slot = some w.source :=
  h.plain_driver_iff.2 ⟨k, w, hw, rfl, rfl, rfl⟩

/-- The drivers of a component are those of its slots. -/
theorem WellWired.driversOf_eq_map (h : c.WellWired) (hx : c.component? id = some x) :
    c.driversOf id = (List.range x.kind.arity).map (c.plain.driver id) := by
  refine List.ext_getElem (by simp [h.length_driversOf hx]) fun i hi hi' => ?_
  rw [List.getElem_map, List.getElem_range]
  show _ = (c.driversOf id)[i]?.join
  rw [List.getElem?_eq_getElem hi]
  rfl

/-- Two wires that end on one slot are the same. -/
theorem WellWired.eq_of_end (h : c.WellWired) {j : WireId} {v : Wire} (hw : c.wire? k = some w)
    (hv : c.wire? j = some v) (htarget : v.target = w.target) (hslot : v.slot = w.slot) :
    j = k ∧ v = w := by
  obtain rfl : v = w := h.bijOn.injOn (mem_wireSet hv) (mem_wireSet hw) (Prod.ext htarget hslot)
  exact ⟨(Roster.name_of_get? hv).symm.trans (Roster.name_of_get? hw), rfl⟩

/-! ## Removing wires and components -/

/-- A wire gives up the slot that it ends on. -/
theorem WellWired.plain_disconnect (h : c.WellWired) (hw : c.wire? k = some w) :
    (c.disconnect k).plain = c.plain.release w.target w.slot := by
  refine DriverMap.ext (funext fun a => ?_) (funext₂ fun a i => Option.ext fun b => ?_)
  · simp [plain, DriverMap.release, component?_disconnect h, Function.comp_def]
  · rw [(h.disconnect k).plain_driver_iff]
    simp only [DriverMap.release, Option.ite_none_left_eq_some, h.plain_driver_iff,
      wire?_disconnect_eq_some_iff]
    constructor
    · rintro ⟨j, v, ⟨hne, hv⟩, hsource, rfl, rfl⟩
      exact ⟨fun hend => hne (h.eq_of_end hw hv hend.1 hend.2).1, j, v, hv, hsource, rfl, rfl⟩
    · rintro ⟨hne, j, v, hv, hsource, rfl, rfl⟩
      refine ⟨j, v, ⟨?_, hv⟩, hsource, rfl, rfl⟩
      rintro rfl
      obtain rfl := Option.some.inj (hw.symm.trans hv)
      exact hne ⟨rfl, rfl⟩

/-- The wires that a removed component leaves are those that are not at it. -/
theorem wire?_remove_eq_some_iff (hx : c.component? id = some x) :
    (c.remove id).wire? k = some w ↔ c.wire? k = some w ∧ w.source ≠ id ∧ w.target ≠ id := by
  have hfound : c.components.contains id = true := congrArg Option.isSome hx
  rw [wire?_remove, hfound]
  simp only [true_and, Option.ite_none_left_eq_some, mem_incident_iff]
  constructor
  · rintro ⟨hnot, hw⟩
    exact ⟨hw, not_or.1 fun hend => hnot ⟨w, hw, hend⟩⟩
  · rintro ⟨hw, hsource, htarget⟩
    refine ⟨?_, hw⟩
    rintro ⟨v, hv, hend⟩
    obtain rfl := Option.some.inj (hw.symm.trans hv)
    exact hend.elim hsource htarget

/-- Removing wires takes them off the slots and leaves components otherwise as they are. -/
theorem WellWired.unplugged_disconnectAll (h : c.WellWired) (ks : List WireId) (a : ComponentId) :
    ((ks.foldl Circuit.disconnect c).component? a).map (·.unplugged) =
      (c.component? a).map (·.unplugged) := by
  induction ks generalizing c with
  | nil => rfl
  | cons k ks ih =>
      rw [List.foldl_cons, ih (h.disconnect k), component?_disconnect h, Option.map_map]
      simp only [Function.comp_def, Component.unplugged_without]

/-- The other components stay when one is removed. -/
theorem WellWired.unplugged_remove (h : c.WellWired) (ha : a ≠ id) :
    ((c.remove id).component? a).map (·.unplugged) = (c.component? a).map (·.unplugged) := by
  unfold Circuit.remove remove?
  split
  · rw [← h.unplugged_disconnectAll (c.incident id) a, Option.getD_some, component?,
      Roster.get?_erase, if_neg ha]
    rfl
  · rfl

/-- A component takes all slots along that are its own or that it drives. -/
theorem WellWired.plain_remove (h : c.WellWired) (hx : c.component? id = some x) :
    (c.remove id).plain = c.plain.remove id := by
  refine DriverMap.ext (funext fun a => ?_) (funext₂ fun a i => Option.ext fun b => ?_)
  · show ((c.remove id).component? a).map (·.unplugged) =
      if a = id then none else (c.component? a).map (·.unplugged)
    split
    case isTrue ha => rw [ha, component?_remove_self, Option.map_none]
    case isFalse ha => exact h.unplugged_remove ha
  · rw [(h.remove id).plain_driver_iff]
    simp only [DriverMap.remove, Option.ite_none_left_eq_some, not_or,
      wire?_remove_eq_some_iff hx]
    constructor
    · rintro ⟨j, v, ⟨hv, hsource, htarget⟩, rfl, rfl, rfl⟩
      have hdriver := h.plain_driver hv
      exact ⟨⟨htarget, fun hid => hsource (Option.some.inj (hdriver.symm.trans hid))⟩, hdriver⟩
    · rintro ⟨⟨ha, hid⟩, hb⟩
      obtain ⟨j, v, hv, rfl, rfl, rfl⟩ := h.plain_driver_iff.1 hb
      exact ⟨j, v, ⟨hv, fun hsource => hid (hsource ▸ hb), ha⟩, rfl, rfl, rfl⟩

/-! ## Adding components and wires -/

/-- A component under a free name is all that is new. -/
theorem plain_place (hfree : c.component? x.id = none) :
    (c.place x).plain = c.plain.insert x := by
  have hsame := sameBut_place c x
  refine DriverMap.ext (funext fun a => ?_) (funext₂ fun a i => ?_)
  · show ((c.place x).component? a).map _ = if a = x.id then _ else (c.component? a).map _
    by_cases ha : a = x.id
    · rw [if_pos ha, ha, component?_place_self]
      simp [Component.unplugged]
    · rw [if_neg ha, hsame.component ha]
  · show ((c.place x).driversOf a)[i]?.join = (c.driversOf a)[i]?.join
    by_cases ha : a = x.id
    · have hnone : c.driversOf x.id = [] := by rw [driversOf, hfree]
      rw [ha, driversOf_place, hnone, List.getElem?_replicate]
      split <;> rfl
    · rw [hsame.drivers ha]

/-- A component takes the place of the one of its name. -/
theorem WellWired.plain_add_taken (h : c.WellWired) (hid : x.id ≠ "") {y : Component}
    (hy : c.component? x.id = some y) : (c.add x).2.plain = (c.plain.remove x.id).insert x := by
  rw [Circuit.add, if_neg hid, plain_place (component?_remove_self c x.id), h.plain_remove hy]

/-- A component is added under its name if that is free. -/
theorem plain_add_free (hid : x.id ≠ "") (hfree : c.component? x.id = none) :
    (c.add x).2.plain = c.plain.insert x := by
  rw [add_eq_place hid hfree]
  exact plain_place hfree

/-- A component without a name is added under a new one. -/
theorem plain_add_unnamed (hid : x.id = "") : c.component? (c.add x).1 = none ∧
    (c.add x).2.plain = c.plain.insert (x.withId (c.add x).1) := by
  rw [add, if_pos hid]
  have hfree := component?_freshComponentNumber c x.kind.category
  refine ⟨hfree, ?_⟩
  exact plain_place (c := { c with lastNumber := c.freshComponentNumber x.kind.category })
    (x := x.withId (componentName x.kind.category (c.freshComponentNumber x.kind.category))) hfree

/-- The wires that are left when a slot is freed are those that do not end there. -/
theorem WellWired.wire?_free_eq_some_iff (h : c.WellWired) :
    (c.free target slot).wire? k = some w ↔
      c.wire? k = some w ∧ ¬ (w.target = target ∧ w.slot = slot) := by
  rcases free_cases c target slot with ⟨t, j, ht, hslot, hfree⟩ | ⟨hempty, hfree⟩
  · obtain ⟨v, hv, rfl, rfl⟩ := h.slot ht hslot
    rw [hfree, wire?_disconnect_eq_some_iff]
    constructor
    · exact fun ⟨hne, hw⟩ => ⟨hw, fun hend => hne (h.eq_of_end hv hw hend.1 hend.2).1⟩
    · rintro ⟨hw, hend⟩
      refine ⟨?_, hw⟩
      rintro rfl
      obtain rfl := Option.some.inj (hv.symm.trans hw)
      exact hend ⟨rfl, rfl⟩
  · rw [hfree]
    refine ⟨fun hw => ⟨hw, ?_⟩, And.left⟩
    rintro ⟨rfl, rfl⟩
    obtain ⟨t, ht, hslot⟩ := h.target hw
    exact hempty ht hslot

/-- Freeing a slot takes a wire off it at most. -/
theorem WellWired.unplugged_free (h : c.WellWired) (target a : ComponentId) (slot : Nat) :
    ((c.free target slot).component? a).map (·.unplugged) =
      (c.component? a).map (·.unplugged) := by
  rcases free_cases c target slot with ⟨_, k, _, _, hfree⟩ | ⟨_, hfree⟩ <;> rw [hfree]
  exact h.unplugged_disconnectAll [k] a

/-- A wire that is accepted drives the slot that it ends on, and nothing else changes. -/
theorem WellWired.plain_wireUp (h : c.WellWired) {loopsAllowed : Bool}
    (hd : c.wireUp loopsAllowed source target slot = .ok (k, d)) :
    d.plain = c.plain.drive source target slot := by
  have hwired := h.wireUp hd
  obtain ⟨-, rfl⟩ := wireUp_eq_ok hd
  refine DriverMap.ext (funext fun a => ?_) (funext₂ fun a i => Option.ext fun b => ?_)
  · show ((((c.free target slot).attach source target slot).2).component? a).map _ =
      (c.component? a).map _
    rw [← h.unplugged_free target a slot, component?_attach, Option.map_map]
    refine congrArg (Option.map · _) (funext fun x => ?_)
    simp only [Function.comp_def]
    split <;> simp
  · rw [hwired.plain_driver_iff]
    show _ ↔ (if a = target ∧ i = slot then some source else c.plain.driver a i) = some b
    by_cases hend : a = target ∧ i = slot
    · rw [if_pos hend, Option.some.injEq]
      obtain ⟨rfl, rfl⟩ := hend
      constructor
      · rintro ⟨j, v, hv, hsource, htarget, hslot⟩
        rcases wire?_attach_cases hv with ⟨_, rfl⟩ | hv
        · exact hsource
        · exact absurd ⟨htarget, hslot⟩ (h.wire?_free_eq_some_iff.1 hv).2
      · rintro rfl
        exact ⟨_, _, by rw [wire?_attach, if_pos rfl], rfl, rfl, rfl⟩
    · rw [if_neg hend, h.plain_driver_iff]
      constructor
      · rintro ⟨j, v, hv, hsource, rfl, rfl⟩
        rcases wire?_attach_cases hv with ⟨_, rfl⟩ | hv
        · exact absurd ⟨rfl, rfl⟩ hend
        · exact ⟨j, v, (h.wire?_free_eq_some_iff.1 hv).1, hsource, rfl, rfl⟩
      · rintro ⟨j, v, hv, hsource, rfl, rfl⟩
        exact ⟨j, v, wire?_attach_of_wire? (h.wire?_free_eq_some_iff.2 ⟨hv, hend⟩), hsource, rfl,
          rfl⟩

/-! ## Counting entries -/

/-- The wires that leave a component are the entries that it drives, each once. -/
theorem WellWired.fanout_entries (h : c.WellWired) (id : ComponentId) :
    ((c.fanout id).map fun w => (w.target, w.slot)).Nodup ∧
      ∀ a i, (a, i) ∈ (c.fanout id).map (fun w => (w.target, w.slot)) ↔
        c.plain.driver a i = some id := by
  have hlook : ∀ {w}, w ∈ c.fanout id ↔ c.wire? w.id = some w ∧ w.source = id := by
    intro w
    rw [fanout, List.mem_filter, Roster.mem_entries_iff, beq_iff_eq, wire?]
  constructor
  · refine (c.nodup_wires.filter _).map_on fun v hv w hw hend => ?_
    exact h.bijOn.injOn (hlook.1 hv).1 (hlook.1 hw).1 hend
  · intro a i
    rw [h.plain_driver_iff, List.mem_map]
    constructor
    · rintro ⟨w, hw, hend⟩
      obtain ⟨rfl, rfl⟩ := Prod.mk.inj hend
      exact ⟨w.id, w, (hlook.1 hw).1, (hlook.1 hw).2, rfl, rfl⟩
    · rintro ⟨k, w, hw, hsource, rfl, rfl⟩
      exact ⟨w, hlook.2 ⟨mem_wireSet hw, hsource⟩, rfl⟩

/-- There is one wire for each entry. -/
theorem WellWired.encard_entries (h : c.WellWired) : c.plain.entries.encard = c.wires.size := by
  have hset : c.wireSet = (c.wires.entries.toFinset : Set Wire) := by
    rw [List.coe_toFinset]
    exact Set.ext fun w => Roster.mem_entries_iff.symm
  have hentries : c.plain.entries = c.wiredSlots := by
    rw [← h.bijOn.image_eq]
    ext ⟨a, i⟩
    simp only [DriverMap.entries, Set.mem_ofPred_eq, h.plain_driver_iff, Set.mem_image, wireSet,
      Prod.mk.injEq]
    constructor
    · rintro ⟨b, k, w, hw, -, hend⟩
      exact ⟨w, mem_wireSet hw, hend⟩
    · rintro ⟨w, hw, hend⟩
      exact ⟨w.source, w.id, w, hw, rfl, hend⟩
  rw [hentries, ← h.bijOn.image_eq, h.bijOn.injOn.encard_image, hset,
    Set.encard_coe_eq_coe_finsetCard, List.toFinset_card_of_nodup c.nodup_wires]
  rfl

end Circuit

/-- The circuit store refines a plain driver map. In a reachable circuit, a wire that is accepted
sets the entry of its slot, removing a wire deletes its entry, removing a component deletes it
with the entries at it, adding a component under a name in use does that first and then adds the
component with empty slots, adding one under a free name or without a name does only the latter,
and clearing empties the map; the components are otherwise as they were. An operation that is
refused leaves the circuit as it is. The wires that leave a component are the entries that it
drives, and there are as many wires as entries. -/
theorem store_refines_driver_map {c : Circuit} (h : c.Reachable) :
    (∀ source target slot k d,
      c.connect source target slot = .ok (k, d) ∨ c.force source target slot = .ok (k, d) →
        d.plain = c.plain.drive source target slot) ∧
    (∀ k w, c.wire? k = some w → c.plain.driver w.target w.slot = some w.source ∧
      (c.disconnect k).plain = c.plain.release w.target w.slot) ∧
    (∀ id x, c.component? id = some x → (c.remove id).plain = c.plain.remove id) ∧
    (∀ x y, x.id ≠ "" → c.component? x.id = some y →
      (c.add x).1 = x.id ∧ (c.add x).2.plain = (c.plain.remove x.id).insert x) ∧
    (∀ x, x.id ≠ "" → c.component? x.id = none →
      (c.add x).1 = x.id ∧ (c.add x).2.plain = c.plain.insert x) ∧
    (∀ x, x.id = "" → c.component? (c.add x).1 = none ∧
      (c.add x).2.plain = c.plain.insert (x.withId (c.add x).1)) ∧
    c.clear.plain = .empty ∧
    (∀ e : Edit, e.Refused c → e.apply c = c) ∧
    (∀ id, ((c.fanout id).map fun w => (w.target, w.slot)).Nodup ∧
      ∀ a i, (a, i) ∈ (c.fanout id).map (fun w => (w.target, w.slot)) ↔
        c.plain.driver a i = some id) ∧
    c.plain.entries.encard = c.wires.size := by
  have hwired := h.wellWired
  have hname : ∀ x, x.id ≠ "" → (c.add x).1 = x.id := fun x hid => by rw [Circuit.add, if_neg hid]
  refine ⟨fun source target slot k d hd => ?_, fun k w hw => ?_, fun id x => hwired.plain_remove,
    fun x y hid hy => ?_, fun x hid hfree => ?_, fun x => Circuit.plain_add_unnamed, rfl,
    fun e => Edit.Refused.apply_eq, hwired.fanout_entries, hwired.encard_entries⟩
  · exact hd.elim hwired.plain_wireUp hwired.plain_wireUp
  · exact ⟨hwired.plain_driver hw, hwired.plain_disconnect hw⟩
  · exact ⟨hname x hid, hwired.plain_add_taken hid hy⟩
  · exact ⟨hname x hid, Circuit.plain_add_free hid hfree⟩

/-- Operations on the latch: a wire takes the place of another, one of the two wires from a switch
goes, a gate goes with the wires on both of its sides, another takes the place of one, a new gate
comes with a name and without one, and a wire to a slot that does not exist is refused. -/
theorem store_refines_driver_map_latch : latch.Reachable ∧
    let gate := Component.gate .and .origin
    (∃ k d, latch.connect "set" "q" 0 = .ok (k, d) ∧
      d.plain = latch.plain.drive "set" "q" 0) ∧
    (latch.disconnect "connection-10").plain = latch.plain.release "both" 1 ∧
    (latch.remove "q").plain = latch.plain.remove "q" ∧
    (latch.add (gate.withId "p")).2.plain = (latch.plain.remove "p").insert (gate.withId "p") ∧
    (latch.add (gate.withId "new")).2.plain = latch.plain.insert (gate.withId "new") ∧
    latch.component? (latch.add gate).1 = none ∧
    (Edit.connect "set" "q" 2).apply latch = latch ∧
    latch.plain.entries.encard = 8 := by
  have hreach : latch.Reachable := reachable_applyAll _
  obtain ⟨hconnect, hdisconnect, hremove, htaken, hfree, hunnamed, -, hrefused, -, hcount⟩ :=
    store_refines_driver_map hreach
  have hwire : latch.wire? "connection-10" = some ⟨"connection-10", "set", "both", 1⟩ := by
    decide +kernel
  obtain ⟨p, hp⟩ := Option.isSome_iff_exists.1
    (by decide +kernel : (latch.component? "p").isSome = true)
  obtain ⟨q, hq⟩ := Option.isSome_iff_exists.1
    (by decide +kernel : (latch.component? "q").isSome = true)
  have hslot : latch.connect "set" "q" 2 = .error (.slotOutOfRange "q" 2 2) := by decide +kernel
  have hsize : latch.wires.size = 8 := by decide +kernel
  refine ⟨hreach, ?_, (hdisconnect _ _ hwire).2, hremove "q" q hq, ?_, ?_, (hunnamed _ rfl).1,
    hrefused (.connect "set" "q" 2) ⟨_, hslot⟩, ?_⟩
  · have haccepted : (latch.connect "set" "q" 0).isOk = true := by decide +kernel
    cases hd : latch.connect "set" "q" 0 with
    | error reason => simp [hd, Except.isOk, Except.toBool] at haccepted
    | ok d => exact ⟨d.1, d.2, rfl, hconnect _ _ _ _ _ (.inl hd)⟩
  · exact (htaken ((Component.gate .and .origin).withId "p") p (by decide) hp).2
  · exact (hfree ((Component.gate .and .origin).withId "new") (by decide) (by decide +kernel)).2
  · rw [hcount, hsize]
    rfl

end LogicCircuit
