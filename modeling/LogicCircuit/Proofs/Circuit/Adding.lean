import LogicCircuit.Proofs.Circuit.DriverMap

/-!
# Components added in turn

What a list of components comes to when they are added to a circuit one after another. Each is
given a name (`Circuit.namesGiven`): its own, or a new one if it has none. A component under a
name that is given again is gone in the end; the last one of a name is found (`component_addAll`).
So the names of the circuit are the old ones and those given (`mem_ids_addAll_iff`), and there are
as many components as different names.
-/

namespace LogicCircuit.Circuit

variable {c : Circuit} {a : ComponentId} {x : Component} {xs : List Component} {i : Nat}

/-- The circuit after some components were added in turn. -/
def addAll (c : Circuit) (xs : List Component) : Circuit := xs.foldl (fun c x => (c.add x).2) c

/-- The names that some components are given when they are added in turn. -/
def namesGiven (c : Circuit) : List Component → List ComponentId
  | [] => []
  | x :: xs => (c.add x).1 :: (c.add x).2.namesGiven xs

@[simp] theorem length_namesGiven (c : Circuit) (xs : List Component) :
    (c.namesGiven xs).length = xs.length := by
  induction xs generalizing c with
  | nil => rfl
  | cons x xs ih => exact congrArg Nat.succ (ih _)

/-- A component keeps the name that it has. -/
theorem add_fst (c : Circuit) (hid : x.id ≠ "") : (c.add x).1 = x.id := by
  rw [add, if_neg hid]

/-- After a component was added it is found under the name that it was given, and all others are
as they were. -/
theorem WellWired.component_add (h : c.WellWired) (x : Component) (a : ComponentId) :
    (c.add x).2.plain.component a =
      if a = (c.add x).1 then some (x.withId (c.add x).1).unplugged else c.plain.component a := by
  by_cases hid : x.id = ""
  · rw [(plain_add_unnamed hid).2]
    rfl
  · have hself : x.withId x.id = x := rfl
    rw [add_fst c hid, hself]
    cases hy : c.component? x.id with
    | none =>
        rw [plain_add_free hid hy]
        rfl
    | some y =>
        rw [h.plain_add_taken hid hy]
        show (if a = x.id then _ else if a = x.id then _ else _) = _
        by_cases ha : a = x.id
        · rw [if_pos ha, if_pos ha]
        · rw [if_neg ha, if_neg ha, if_neg ha]

/-- Nothing drives a component that was added, and if it drives nothing itself the other slots are
driven as they were. -/
theorem WellWired.driver_add (h : c.WellWired) (hid : x.id ≠ "")
    (hidle : ∀ a i, c.plain.driver a i ≠ some x.id) (a : ComponentId) (i : Nat) :
    (c.add x).2.plain.driver a i = if a = x.id then none else c.plain.driver a i := by
  cases hy : c.component? x.id with
  | none =>
      rw [plain_add_free hid hy]
      show c.plain.driver a i = _
      split
      case isTrue ha =>
        show (c.driversOf a)[i]?.join = none
        rw [ha, driversOf, hy]
        rfl
      case isFalse => rfl
  | some y =>
      rw [h.plain_add_taken hid hy]
      show (if a = x.id ∨ c.plain.driver a i = some x.id then none else c.plain.driver a i) = _
      simp only [hidle, or_false]

theorem WellWired.addAll (h : c.WellWired) (hxs : ∀ x ∈ xs, x.WellFormed) :
    (c.addAll xs).WellWired := by
  induction xs generalizing c with
  | nil => exact h
  | cons x xs ih =>
      obtain ⟨hx, hxs⟩ := List.forall_mem_cons.1 hxs
      exact ih (h.add hx) hxs

/-- Names that are not given again keep their components. -/
theorem WellWired.component_addAll_of_not_mem (h : c.WellWired) (hxs : ∀ x ∈ xs, x.WellFormed)
    (ha : a ∉ c.namesGiven xs) : (c.addAll xs).plain.component a = c.plain.component a := by
  induction xs generalizing c with
  | nil => rfl
  | cons x xs ih =>
      obtain ⟨hx, hxs⟩ := List.forall_mem_cons.1 hxs
      obtain ⟨hne, ha⟩ := not_or.1 (mt List.mem_cons.2 ha)
      refine (ih (h.add hx) hxs ha).trans ?_
      rw [h.component_add, if_neg hne]

/-- The last component that is given a name is found under it. -/
theorem WellWired.component_addAll (h : c.WellWired) (hxs : ∀ x ∈ xs, x.WellFormed)
    (hx : xs[i]? = some x) (hname : (c.namesGiven xs)[i]? = some a)
    (hlast : a ∉ (c.namesGiven xs).drop (i + 1)) :
    (c.addAll xs).plain.component a = some (x.withId a).unplugged := by
  induction xs generalizing c i with
  | nil => cases hx
  | cons y xs ih =>
      obtain ⟨hy, hxs⟩ := List.forall_mem_cons.1 hxs
      cases i with
      | zero =>
          obtain rfl := Option.some.inj hx
          obtain rfl := Option.some.inj hname
          refine ((h.add hy).component_addAll_of_not_mem hxs hlast).trans ?_
          rw [h.component_add, if_pos rfl]
      | succ i => exact ih (h.add hy) hxs hx hname hlast

/-- A circuit has the component of a name exactly if its driver map has. -/
theorem mem_ids_iff_component : a ∈ c.ids ↔ ∃ x, c.plain.component a = some x := by
  rw [mem_ids_iff]
  show _ ↔ ∃ x, (c.component? a).map _ = some x
  cases c.component? a <;> simp

/-- Circuits with the same names list them in the same order. -/
theorem ids_eq_of_mem_iff {d : Circuit} (h : ∀ a, a ∈ d.ids ↔ a ∈ c.ids) : d.ids = c.ids := by
  have hincreasing : ∀ c : Circuit, c.ids.Pairwise fun a b => id a < id b := fun c =>
    List.pairwise_map.2 c.components.increasing
  exact Roster.eq_of_mem_iff (hincreasing d) (hincreasing c) h

/-- Circuits with the same components have the same names. -/
theorem ids_eq_of_component {d : Circuit} (h : d.plain.component = c.plain.component) :
    d.ids = c.ids :=
  ids_eq_of_mem_iff fun a => by rw [mem_ids_iff_component, mem_ids_iff_component, h]

theorem WellWired.mem_ids_add_iff (h : c.WellWired) (x : Component) :
    a ∈ (c.add x).2.ids ↔ a = (c.add x).1 ∨ a ∈ c.ids := by
  rw [mem_ids_iff_component, mem_ids_iff_component, h.component_add]
  by_cases ha : a = (c.add x).1 <;> simp [ha]

/-- The names are those from before and those that were given. -/
theorem WellWired.mem_ids_addAll_iff (h : c.WellWired) (hxs : ∀ x ∈ xs, x.WellFormed) :
    a ∈ (c.addAll xs).ids ↔ a ∈ c.ids ∨ a ∈ c.namesGiven xs := by
  induction xs generalizing c with
  | nil => exact (or_iff_left List.not_mem_nil).symm
  | cons x xs ih =>
      obtain ⟨hx, hxs⟩ := List.forall_mem_cons.1 hxs
      refine (ih (h.add hx) hxs).trans ?_
      rw [h.mem_ids_add_iff, namesGiven, List.mem_cons]
      tauto

/-- A component without a name is given one that neither the circuit nor an earlier one has. -/
theorem WellWired.new_of_unnamed (h : c.WellWired) (hxs : ∀ x ∈ xs, x.WellFormed)
    (hx : xs[i]? = some x) (hid : x.id = "") (hname : (c.namesGiven xs)[i]? = some a) :
    a ∉ c.ids ∧ a ∉ (c.namesGiven xs).take i := by
  induction xs generalizing c i with
  | nil => cases hx
  | cons y xs ih =>
      obtain ⟨hy, hxs⟩ := List.forall_mem_cons.1 hxs
      cases i with
      | zero =>
          obtain rfl := Option.some.inj hx
          obtain rfl := Option.some.inj hname
          refine ⟨fun hmem => ?_, List.not_mem_nil⟩
          obtain ⟨z, hz⟩ := mem_ids_iff.1 hmem
          rw [(plain_add_unnamed hid).1] at hz
          cases hz
      | succ i =>
          obtain ⟨hids, hearlier⟩ := ih (h.add hy) hxs hx hname
          rw [h.mem_ids_add_iff, not_or] at hids
          exact ⟨hids.2, fun hmem => (List.mem_cons.1 hmem).elim hids.1 hearlier⟩

/-- A component that has a name is given it. -/
theorem namesGiven_of_named (hx : xs[i]? = some x) (hid : x.id ≠ "")
    (hname : (c.namesGiven xs)[i]? = some a) : a = x.id := by
  induction xs generalizing c i with
  | nil => cases hx
  | cons y xs ih =>
      cases i with
      | zero =>
          obtain rfl := Option.some.inj hx
          exact (Option.some.inj hname).symm.trans (add_fst c hid)
      | succ i => exact ih hx hname

/-- Components that all have names are given these. -/
theorem namesGiven_eq_map (hxs : ∀ x ∈ xs, x.id ≠ "") : c.namesGiven xs = xs.map (·.id) := by
  induction xs generalizing c with
  | nil => rfl
  | cons x xs ih =>
      obtain ⟨hx, hxs⟩ := List.forall_mem_cons.1 hxs
      rw [namesGiven, List.map_cons, ih hxs, add_fst c hx]

theorem wire?_of_addAll {k : WireId} {w : Wire} (hw : (c.addAll xs).wire? k = some w) :
    c.wire? k = some w := by
  induction xs generalizing c with
  | nil => exact hw
  | cons x xs ih => exact wire?_of_add (ih hw)

/-- A generated name is not empty. -/
theorem componentName_ne_empty (category : String) (n : Nat) : componentName category n ≠ "" := by
  intro h
  have hchars := congrArg String.toList h
  simp [componentName] at hchars

theorem add_fst_ne_empty (c : Circuit) (x : Component) : (c.add x).1 ≠ "" := by
  by_cases hid : x.id = ""
  · rw [add, if_pos hid]
    exact componentName_ne_empty _ _
  · rwa [add_fst c hid]

/-- No change gives a component the empty name. -/
theorem component_empty_change {loopsAllowed : Bool} {d : Circuit} (h : c.WellWired)
    (hchange : Change loopsAllowed c d) (hnone : c.plain.component "" = none) :
    d.plain.component "" = none := by
  cases hchange with
  | state hframe =>
      have hlook := frame_component? hframe ""
      rw [Option.map_eq_none_iff.1 hnone, Option.map_none, Option.map_eq_none_iff] at hlook
      exact Option.map_eq_none_iff.2 hlook
  | @add x hx => rw [h.component_add, if_neg (add_fst_ne_empty c x).symm, hnone]
  | remove id =>
      cases hx : c.component? id with
      | none =>
          have hcontains : c.components.contains id = false := congrArg Option.isSome hx
          rwa [remove, remove?, if_neg (by simp [hcontains])]
      | some x =>
          rw [h.plain_remove hx]
          show (if _ then _ else _) = none
          split
          · rfl
          · exact hnone
  | disconnect k =>
      refine Option.map_eq_none_iff.2 ?_
      rw [component?_disconnect h, Option.map_eq_none_iff.1 hnone, Option.map_none]
  | clear => rfl
  | wireUp hd =>
      rw [h.plain_wireUp hd]
      exact hnone

/-- No component of a reachable circuit has the empty name. -/
theorem Reachable.component_empty (h : c.Reachable) : c.component? "" = none := by
  have hrun := Arises.run (fun _ _ => trivial) h
  have hkeeps := hrun.keeps (P := fun c => c.plain.component "" = none)
    (fun _ _ _ _ hc hchange => component_empty_change hc hchange) .empty rfl
  exact Option.map_eq_none_iff.1 hkeeps.2

/-- Starting from nothing there are as many components as different names. -/
theorem size_addAll_eq_iff (hxs : ∀ x ∈ xs, x.WellFormed) :
    (empty.addAll xs).components.size = xs.length ↔ (empty.namesGiven xs).Nodup := by
  have hids : (empty.addAll xs).ids.toFinset = (empty.namesGiven xs).toFinset := by
    ext a
    rw [List.mem_toFinset, List.mem_toFinset, WellWired.empty.mem_ids_addAll_iff hxs]
    exact or_iff_right List.not_mem_nil
  have hsize : (empty.addAll xs).components.size = (empty.namesGiven xs).toFinset.card := by
    rw [← hids, List.toFinset_card_of_nodup (nodup_ids _)]
    exact (List.length_map _).symm
  rw [hsize, ← length_namesGiven empty xs]
  exact Multiset.toFinset_card_eq_card_iff_nodup (m := Multiset.ofList _)

end LogicCircuit.Circuit
