import LogicCircuit.Proofs.Simulation.Order
import Mathlib.Data.List.Induction

/-!
# The table of depths

The search for the depth of a component, `Circuit.depthBelow`, notes each depth that it knows in a
table and cuts a way that comes back to an open component. It closes components in the order of a
depth-first walk along the drivers, and what it notes about one depends on the entries before it
alone: `WellWired.depthBelow_eq` says that the table is `Circuit.depthTable` of that order,
whatever loops there are. So the depth of a circuit is the largest entry of one table
(`WellWired.depth_eq_deepest`), no entry exceeds the number of gates before it by more than one
(`WellWired.depthIn_le`), and without cycles each component is one above its deepest driver
(`WellWired.depthOf_eq`). The calls are nested no deeper than there are components
(`depthWithin_eq`), which is why the search ends.
-/

namespace LogicCircuit

open Traversal (Below visit ofStarts explores_visit explores_foldl explores_ofStarts room)

/-- The largest of some depths; of none it is zero. -/
def deepest (depths : List Nat) : Nat := depths.foldl max 0

/-- The largest depth is zero or one of them, and none is larger. -/
theorem deepest_spec (depths : List Nat) :
    deepest depths ∈ 0 :: depths ∧ ∀ n ∈ 0 :: depths, n ≤ deepest depths :=
  List.max?_eq_some_iff.1 List.max?_cons'

theorem deepest_le_iff {depths : List Nat} {bound : Nat} :
    deepest depths ≤ bound ↔ ∀ n ∈ depths, n ≤ bound := by
  obtain ⟨hmem, hle⟩ := deepest_spec depths
  constructor
  · exact fun h n hn => (hle n (List.mem_cons_of_mem _ hn)).trans h
  · intro h
    rcases List.mem_cons.1 hmem with hzero | hmem
    · rw [hzero]
      exact Nat.zero_le _
    · exact h _ hmem

namespace Circuit

variable {c : Circuit} {a b id : ComponentId} {x : Component}
  {path order xs ys : List ComponentId} {t : Traversal ComponentId}

/-! ## Tables -/

/-- The depth that a table has for a component; one that is not in it has none. -/
def depthIn (table : List (ComponentId × Nat)) (id : ComponentId) : Nat :=
  (table.lookup id).getD 0

theorem depthIn_cons (table : List (ComponentId × Nat)) (a b : ComponentId) (depth : Nat) :
    depthIn ((b, depth) :: table) a = if a = b then depth else depthIn table a := by
  rw [depthIn, List.lookup_cons]
  by_cases hab : a = b
  · simp [hab]
  · simp [hab, depthIn, beq_false_of_ne hab]

/-- Whether a component is of a kind of some sort. -/
def isOf (c : Circuit) (sort : Kind → Bool) (id : ComponentId) : Bool :=
  (c.component? id).any (sort ·.kind)

theorem isOf_of_component? {sort : Kind → Bool} (hx : c.component? id = some x) :
    c.isOf sort id = sort x.kind := by
  simp [isOf, hx]

/-- The depth of a component above drivers at some depths. -/
def above (c : Circuit) (depth : ComponentId → Nat) (id : ComponentId) : Nat :=
  if c.isOf Kind.isSource id then 0
  else deepest ((c.driverGraph.next id).map depth) + 1

/-- The table of components that are entered in turn, each above those entered before it. -/
def depthTable (c : Circuit) (order : List ComponentId) : List (ComponentId × Nat) :=
  order.foldl (fun table id => (id, c.above (depthIn table) id) :: table) []

@[simp] theorem depthTable_append_singleton (c : Circuit) (order : List ComponentId)
    (a : ComponentId) : c.depthTable (order ++ [a]) =
      (a, c.above (depthIn (c.depthTable order)) a) :: c.depthTable order := by
  simp [depthTable]

/-- A table has entries for the components that were entered. -/
theorem lookup_depthTable_eq_none_iff : (c.depthTable order).lookup a = none ↔ a ∉ order := by
  induction order using List.reverseRecOn with
  | nil => simp [depthTable]
  | append_singleton order b ih =>
      by_cases hab : a = b
      · simp [hab]
      · simp [List.lookup_cons, beq_false_of_ne hab, hab, ih]

/-- An entry stays while others are made. -/
theorem depthIn_append (ha : a ∉ ys) :
    depthIn (c.depthTable (xs ++ ys)) a = depthIn (c.depthTable xs) a := by
  induction ys using List.reverseRecOn with
  | nil => simp
  | append_singleton ys b ih =>
      obtain ⟨hys, hab⟩ : a ∉ ys ∧ a ≠ b := by simpa using ha
      rw [← List.append_assoc, depthTable_append_singleton, depthIn_cons, if_neg hab, ih hys]

/-- The entry of a component is made from those before it. -/
theorem depthIn_of_split (ha : a ∉ ys) :
    depthIn (c.depthTable (xs ++ a :: ys)) a = c.above (depthIn (c.depthTable xs)) a := by
  rw [List.append_cons, depthIn_append ha, depthTable_append_singleton, depthIn_cons, if_pos rfl]

/-- No entry exceeds the number of gates that were entered, unless it is that of a sink, which may
be one above: sinks drive nothing. -/
theorem WellWired.depthIn_le (h : c.WellWired) (horder : ∀ b ∈ order, b ∈ c.ids)
    (a : ComponentId) :
    depthIn (c.depthTable order) a ≤
      order.countP (c.isOf Kind.isGate) + if c.isOf Kind.isSink a then 1 else 0 := by
  induction order using List.reverseRecOn generalizing a with
  | nil => simp [depthTable, depthIn]
  | append_singleton order b ih =>
      have hbefore := ih fun a ha => horder a (List.mem_append_left _ ha)
      rw [depthTable_append_singleton, depthIn_cons, List.countP_append]
      split
      case isTrue hab =>
        -- the drivers are no sinks, so only a gate or a sink adds to the bound for them
        subst hab
        obtain ⟨x, hx⟩ := mem_ids_iff.1 (horder a (by simp))
        have hups : deepest ((c.driverGraph.next a).map (depthIn (c.depthTable order))) ≤
            order.countP (c.isOf Kind.isGate) := by
          refine deepest_le_iff.2 (List.forall_mem_map.2 fun up hup => ?_)
          obtain ⟨y, hy, hout⟩ := h.component?_driver hup
          simpa [isOf_of_component? hy, hout] using hbefore up
        rw [above]
        cases hk : x.kind <;>
          simp [isOf_of_component? hx, hk, Kind.isSource, Kind.isGate, Kind.isSink, hups]
      case isFalse hab =>
        have hle := hbefore a
        omega

/-! ## The search fills the table -/

/-- The search at a component that is not known. -/
theorem depthBelow_of_unknown {known : List (ComponentId × Nat)} (hknown : known.lookup id = none)
    (hx : c.component? id = some x) :
    c.depthBelow path known id =
      if x.kind.isSource then (0, (id, 0) :: known)
      else if id ∈ path then (0, known)
      else
        let below := (c.driverGraph.next id).foldl (fun state up =>
          let r := c.depthBelow (id :: path) state.2 up
          (max state.1 r.1, r.2)) (0, known)
        (below.1 + 1, (id, below.1 + 1) :: below.2) := by
  rw [depthBelow, hknown]
  dsimp only
  split
  · simp_all
  · rename_i y hy
    obtain rfl := Option.some.inj (hx.symm.trans hy)
    simp only [dite_eq_ite]

/-- Searches in turn fill the table in turn. What one of them finds is what the table has for its
component in the end: it was entered, or it is open and will not be entered by the others. -/
theorem foldl_depthBelow_eq {ups : List ComponentId}
    (hone : ∀ t, ∀ up ∈ ups, Below c.driverGraph path [up] t →
      c.depthBelow path (c.depthTable t.closed) up =
        (depthIn (c.depthTable (visit c.driverGraph path t up).closed) up,
          c.depthTable (visit c.driverGraph path t up).closed))
    (hbelow : Below c.driverGraph path ups t) (depth : Nat) :
    ups.foldl (fun state up =>
        let r := c.depthBelow path state.2 up
        (max state.1 r.1, r.2)) (depth, c.depthTable t.closed) =
      let done := ups.foldl (visit c.driverGraph path) t
      ((ups.map (depthIn (c.depthTable done.closed))).foldl max depth,
        c.depthTable done.closed) := by
  induction ups generalizing t depth with
  | nil => rfl
  | cons up ups ih =>
      have hsplit : Below c.driverGraph path ([up] ++ ups) t := hbelow
      obtain ⟨new, met, hvisit, hexplores⟩ :=
        explores_visit c.supported_driverGraph path t up hsplit.left
      have hrest := hsplit.after hexplores
      obtain ⟨new', met', hwalk, hexplores'⟩ :=
        explores_foldl c.supported_driverGraph path ups _ hrest
      -- the others do not enter the first one again
      have hstays : up ∉ new' := fun hup => by
        obtain ⟨hclosed, hopen⟩ := hexplores'.fresh up hup
        rcases hexplores.done up (List.mem_singleton_self up) with hdone | ⟨hdone, -⟩
        · exact hclosed hdone
        · exact hopen hdone
      have hfirst := hone t up List.mem_cons_self hsplit.left
      rw [hvisit] at hfirst
      have hlast := ih (fun t v hv => hone t v (List.mem_cons_of_mem _ hv)) hrest
        (max depth (depthIn (c.depthTable (t.closed ++ new)) up))
      simp only [List.foldl_cons, List.map_cons, hvisit, hfirst, hlast, hwalk]
      rw [depthIn_append hstays]

/-- Nothing drives a source. -/
theorem WellWired.next_driverGraph_of_source (h : c.WellWired) (hx : c.component? id = some x)
    (hsource : x.kind.isSource) : c.driverGraph.next id = [] := by
  have hnone := h.length_driversOf hx
  cases hk : x.kind with
  | source s =>
      rw [hk] at hnone
      rw [next_driverGraph, List.length_eq_zero_iff.1 hnone]
      rfl
  | gate g => simp [hk, Kind.isSource] at hsource
  | sink s => simp [hk, Kind.isSource] at hsource

/-- The search from a component fills the table as a walk along the drivers closes components, and
finds the entry of its component. -/
theorem WellWired.depthBelow_eq (h : c.WellWired) {path : List ComponentId}
    {t : Traversal ComponentId} {id : ComponentId} (hid : id ∈ c.ids)
    (hbelow : Below c.driverGraph path [id] t) :
    c.depthBelow path (c.depthTable t.closed) id =
      (depthIn (c.depthTable (visit c.driverGraph path t id).closed) id,
        c.depthTable (visit c.driverGraph path t id).closed) := by
  obtain ⟨x, hx⟩ := mem_ids_iff.1 hid
  by_cases hclosed : id ∈ t.closed
  · -- the depth is known
    obtain ⟨depth, hdepth⟩ := Option.ne_none_iff_exists'.1
      (mt lookup_depthTable_eq_none_iff.1 (not_not_intro hclosed) :
        (c.depthTable t.closed).lookup id ≠ none)
    rw [depthBelow, visit, if_pos hclosed, depthIn, hdepth]
    rfl
  have hunknown : (c.depthTable t.closed).lookup id = none :=
    lookup_depthTable_eq_none_iff.2 hclosed
  by_cases hsource : x.kind.isSource = true
  · -- nothing leads from a source to its drivers, so it is not open
    have hnext := h.next_driverGraph_of_source hx hsource
    have hpath : id ∉ path := fun hopen => by
      cases hbelow.leads id hopen id (List.mem_singleton_self id) with
      | edge hb => simp [hnext] at hb
      | cons hb => simp [hnext] at hb
    have habove : c.above (depthIn (c.depthTable t.closed)) id = 0 := by
      simp [above, isOf_of_component? hx, hsource]
    have hvisit : (visit c.driverGraph path t id).closed = t.closed ++ [id] := by
      rw [Traversal.visit_of_new c.supported_driverGraph hclosed hpath, hnext]
      rfl
    rw [depthBelow_of_unknown hunknown hx, if_pos hsource, hvisit, depthTable_append_singleton,
      habove, depthIn_cons, if_pos rfl]
  by_cases hpath : id ∈ path
  · -- the way is cut, and nothing is entered
    rw [depthBelow_of_unknown hunknown hx, if_neg hsource, if_pos hpath, visit, if_neg hclosed,
      dif_pos hpath, depthIn, hunknown]
    rfl
  have hopened := hbelow.open_node hclosed
  have hall := foldl_depthBelow_eq (fun t up hup hbelow =>
    h.depthBelow_eq (h.mem_ids_of_mem_next hup) hbelow) hopened 0
  rw [depthBelow_of_unknown hunknown hx, if_neg hsource, if_neg hpath, hall,
    Traversal.visit_of_new c.supported_driverGraph hclosed hpath]
  simp [depthIn_cons, above, deepest, isOf_of_component? hx, hsource]
termination_by room c.driverGraph path
decreasing_by exact Traversal.room_cons_lt hid hpath

/-! ## The depth of a circuit -/

/-- The order in which the search for the depth of a circuit closes components. -/
def depthOrder (c : Circuit) : List ComponentId := (ofStarts c.driverGraph c.ids).closed

/-- The depth of a component, as the search for the depth of its circuit finds it. -/
def depthOf (c : Circuit) (id : ComponentId) : Nat := depthIn (c.depthTable c.depthOrder) id

/-- The search closes every component once. -/
theorem WellWired.perm_depthOrder (h : c.WellWired) : c.depthOrder.Perm c.ids := by
  have hnodup := (explores_ofStarts c.supported_driverGraph c.ids).nodup
  refine (List.perm_ext_iff_of_nodup hnodup c.nodup_ids).2 fun a => ?_
  rw [Traversal.mem_closed_ofStarts_iff c.supported_driverGraph]
  constructor
  · rintro ⟨b, hb, rfl | hba⟩
    · exact hb
    · exact h.mem_ids_of_path hba
  · exact fun ha => ⟨a, ha, .refl _ a⟩

/-- The depth of a circuit is that of its deepest component. -/
theorem WellWired.depth_eq_deepest (h : c.WellWired) :
    c.depth = deepest (c.ids.map c.depthOf) := by
  have hstart : Below c.driverGraph [] c.ids {} := ⟨by simp, by simp⟩
  have hall := foldl_depthBelow_eq (fun t id hid hbelow => h.depthBelow_eq hid hbelow) hstart 0
  exact congrArg Prod.fst hall

/-- The gates are the components of that sort. -/
theorem countP_ids_isOf (c : Circuit) (sort : Kind → Bool) :
    c.ids.countP (c.isOf sort) = (c.components.entries.filter (sort ·.kind)).length := by
  rw [ids, List.countP_map, ← List.countP_eq_length_filter]
  refine List.countP_congr fun x hx => ?_
  have hx : c.component? x.id = some x := Roster.mem_entries_iff.1 hx
  simp [isOf_of_component? hx]

/-- Whatever loops there are, the depth is at most the number of gates, and one more for a sink.
-/
theorem WellWired.depth_le (h : c.WellWired) : c.depth ≤ c.gates.length + 1 := by
  rw [h.depth_eq_deepest, deepest_le_iff]
  refine List.forall_mem_map.2 fun id _ => ?_
  have hle := h.depthIn_le (fun a => h.perm_depthOrder.mem_iff.1) id
  rw [h.perm_depthOrder.countP_eq, countP_ids_isOf] at hle
  refine hle.trans (Nat.add_le_add_left ?_ _)
  split <;> omega

/-- What drives a component is in the table before it if nothing leads from it back to the
component. -/
theorem WellWired.precedes_depthOrder (h : c.WellWired) (hacyclic : c.readerGraph.Acyclic)
    (hb : b ∈ c.driverGraph.next a) : Precedes c.depthOrder b a := by
  have ha : a ∈ c.ids := by
    obtain ⟨x, hx, -⟩ := mem_next_driverGraph.1 hb
    exact mem_ids_of_component? hx
  refine (Traversal.precedes_or_mem_returns c.supported_driverGraph
    (h.perm_depthOrder.mem_iff.2 ha) hb).resolve_right fun hmet => ?_
  exact hacyclic b (h.path_readerGraph_iff.2
    (Traversal.path_of_mem_returns c.supported_driverGraph hmet))

/-- Without cycles a source has depth zero and any other component is one above its deepest
driver. -/
theorem WellWired.depthOf_eq (h : c.WellWired) (hacyclic : c.readerGraph.Acyclic)
    (hx : c.component? id = some x) : c.depthOf id = c.above c.depthOf id := by
  have hnodup : c.depthOrder.Nodup := h.perm_depthOrder.nodup_iff.2 c.nodup_ids
  have hid : id ∈ c.depthOrder := h.perm_depthOrder.mem_iff.2 (mem_ids_of_component? hx)
  obtain ⟨before, after, hsplit⟩ := List.append_of_mem hid
  have hsplitNodup := List.nodup_append.1 (hsplit ▸ hnodup)
  have hlate : id ∉ after := (List.nodup_cons.1 hsplitNodup.2.1).1
  have hearly : id ∉ before := fun hid => hsplitNodup.2.2 id hid id (by simp) rfl
  have hself : c.depthOf id = c.above (depthIn (c.depthTable before)) id := by
    rw [depthOf, hsplit, depthIn_of_split hlate]
  rw [hself, above, above]
  refine if_congr Iff.rfl rfl (congrArg (deepest · + 1) (List.map_congr_left fun b hb => ?_))
  have hbefore : b ∈ before := by
    have hprec := h.precedes_depthOrder hacyclic hb
    rw [hsplit, List.append_cons, precedes_append (by simp)] at hprec
    exact (precedes_append_singleton hearly b).1 hprec
  rw [depthOf, hsplit, depthIn_append fun hb => hsplitNodup.2.2 b hbefore b hb rfl]

/-! ## The end of the search -/

/-- The search for the depth of a component with a bound on how deep its calls may be nested; it
fails if they would be nested deeper. -/
def depthWithin (c : Circuit) (nesting : Nat) (path : List ComponentId)
    (known : List (ComponentId × Nat)) (id : ComponentId) :
    Option (Nat × List (ComponentId × Nat)) :=
  match nesting with
  | 0 => none
  | nesting + 1 =>
    match known.lookup id, c.component? id with
    | some depth, _ => some (depth, known)
    | none, none => some (0, known)
    | none, some x =>
      if x.kind.isSource then some (0, (id, 0) :: known)
      else if id ∈ path then some (0, known)
      else
        ((c.driverGraph.next id).foldlM (fun state up =>
          (c.depthWithin nesting (id :: path) state.2 up).map fun r => (max state.1 r.1, r.2))
          (0, known)).map fun below => (below.1 + 1, (id, below.1 + 1) :: below.2)

/-- A bound above the number of components that are not open is never met. -/
theorem depthWithin_eq {nesting : Nat} (hroom : room c.driverGraph path < nesting)
    (known : List (ComponentId × Nat)) (id : ComponentId) :
    c.depthWithin nesting path known id = some (c.depthBelow path known id) := by
  induction nesting generalizing path known id with
  | zero => omega
  | succ nesting ih =>
      rw [depthWithin]
      cases hknown : known.lookup id with
      | some depth =>
          rw [depthBelow, hknown]
      | none =>
      cases hx : c.component? id with
      | none =>
          rw [depthBelow, hknown]
          dsimp only
          split
          · rfl
          · simp_all
      | some x =>
      rw [depthBelow_of_unknown hknown hx]
      dsimp only
      split_ifs with hsource hpath
      · rfl
      · rfl
      · have hless := Traversal.room_cons_lt (g := c.driverGraph) (mem_ids_of_component? hx) hpath
        have hcalls : (fun (state : Nat × List (ComponentId × Nat)) up =>
            (c.depthWithin nesting (id :: path) state.2 up).map fun r => (max state.1 r.1, r.2)) =
              fun state up => pure
                (max state.1 (c.depthBelow (id :: path) state.2 up).1,
                  (c.depthBelow (id :: path) state.2 up).2) := by
          funext state up
          rw [ih (by omega)]
          rfl
        rw [hcalls, List.foldlM_pure]
        rfl

end Circuit

end LogicCircuit
