import LogicCircuit.Proofs.Circuit.Adding
import LogicCircuit.Proofs.Graph.Worklist

/-!
# Names that never come back

One counter numbers the names of components and of wires. It is searched upwards from the latest
number, past the names that are taken, and nothing sets it back: not a removal, not a wire that
gives way, not a circuit that is cleared. `IsFirstFree.stops` says that a search that just goes on
until it finds a free number ends, `Change.lastNumber_le` that the counter only grows, and
`Edit.lastNumber_of_issued` that each new wire bears its latest value. The main result is
`generated_names_are_fresh`.
-/

namespace LogicCircuit

/-! ## The search for a free number -/

/-- One try of a search for a free number: the next number is the answer if it is free. -/
def tryNext (free : Nat → Bool) (n : Nat) : Nat ⊕ Nat :=
  if free (n + 1) then .inl (n + 1) else .inr (n + 1)

/-- The first free number above `n`. -/
structure IsFirstFree (free : Nat → Bool) (n m : Nat) : Prop where
  above : n < m
  vacant : free m = true
  first : ∀ k, n < k → k < m → free k = false

variable {free : Nat → Bool} {tries n m : Nat}

/-- The search comes to the first free number and stops there. -/
theorem IsFirstFree.stops {n m : Nat} (h : IsFirstFree free n m) : Stops (tryNext free) n m := by
  rcases Nat.eq_or_lt_of_le h.above with rfl | hlt
  · exact .stop (if_pos h.vacant)
  · have htaken : free (n + 1) = false := h.first _ (Nat.lt_succ_self n) hlt
    have hnext : tryNext free n = .inr (n + 1) := by
      rw [tryNext, htaken, if_neg Bool.false_ne_true]
    have hrest : IsFirstFree free (n + 1) m :=
      ⟨hlt, h.vacant, fun k hk => h.first k (Nat.lt_of_succ_lt hk)⟩
    exact .move hnext hrest.stops
termination_by m - n

/-- The search has no other answer. -/
theorem IsFirstFree.stops_iff (h : IsFirstFree free n m) {r : Nat} :
    Stops (tryNext free) n r ↔ r = m :=
  ⟨fun hr => hr.unique h.stops, fun hr => hr ▸ h.stops⟩

/-- A search with a limit finds the first free number if there is one within the limit. -/
theorem isFirstFree_firstFree (hlo : n < m) (hhi : m ≤ n + tries + 1) (hm : free m = true) :
    IsFirstFree free n (firstFree free tries n) := by
  refine ⟨?above, free_firstFree hlo hhi hm, ?first⟩
  case above =>
    induction tries generalizing n with
    | zero => exact Nat.lt_succ_self n
    | succ tries ih =>
        unfold firstFree
        split
        case isTrue => exact Nat.lt_succ_self n
        case isFalse htaken =>
          have hne : m ≠ n + 1 := fun e => htaken (e ▸ hm)
          exact Nat.lt_of_succ_lt (ih (by omega) (by omega))
  case first =>
    induction tries generalizing n with
    | zero => exact fun k hk hlt => absurd hlt (Nat.not_lt_of_le hk)
    | succ tries ih =>
        unfold firstFree
        split
        case isTrue => exact fun k hk hlt => absurd hlt (Nat.not_lt_of_le hk)
        case isFalse htaken =>
          have hne : m ≠ n + 1 := fun e => htaken (e ▸ hm)
          intro k hk hlt
          rcases Nat.eq_or_lt_of_le hk with rfl | hk
          · exact Bool.eq_false_iff.2 htaken
          · exact ih (by omega) (by omega) k hk hlt

theorem firstFree_le (free : Nat → Bool) (tries n : Nat) :
    firstFree free tries n ≤ n + tries + 1 := by
  induction tries generalizing n with
  | zero => exact Nat.le_refl _
  | succ tries ih =>
      unfold firstFree
      split
      · omega
      · exact (ih (n + 1)).trans (by omega)

/-- Among the names in a roster a number is found, and as many tries as there are names and one
more are enough. -/
theorem Roster.isFirstFree {α : Type} {name : α → String} (r : Roster name)
    {candidate : Nat → String} (hinj : Function.Injective candidate) (n : Nat) :
    IsFirstFree (fun m => !r.contains (candidate m)) n
      (firstFree (fun m => !r.contains (candidate m)) r.size n) := by
  obtain ⟨m, hlo, hhi, hm⟩ := r.exists_not_contains hinj n
  exact isFirstFree_firstFree hlo hhi (by simp [hm])

namespace Circuit

variable {c d : Circuit} {target : ComponentId} {slot : Nat} {k : WireId}

/-- Whether no component has the generated name with this number. -/
def componentFree (c : Circuit) (category : String) (n : Nat) : Bool :=
  !c.components.contains (componentName category n)

/-- Whether no wire has the generated name with this number. -/
def wireFree (c : Circuit) (n : Nat) : Bool := !c.wires.contains (wireName n)

theorem isFirstFree_freshComponentNumber (c : Circuit) (category : String) :
    IsFirstFree (c.componentFree category) c.lastNumber (c.freshComponentNumber category) :=
  c.components.isFirstFree (componentName_injective category) c.lastNumber

theorem isFirstFree_freshWireNumber (c : Circuit) :
    IsFirstFree c.wireFree c.lastNumber c.freshWireNumber :=
  c.wires.isFirstFree wireName_injective c.lastNumber

/-! ## The counter -/

theorem lastNumber_disconnect (c : Circuit) (k : WireId) :
    (c.disconnect k).lastNumber = c.lastNumber := by
  unfold disconnect disconnect?
  cases c.wire? k <;> rfl

theorem lastNumber_disconnectAll (c : Circuit) (ks : List WireId) :
    (ks.foldl disconnect c).lastNumber = c.lastNumber := by
  induction ks generalizing c with
  | nil => rfl
  | cons k ks ih => exact (ih (c.disconnect k)).trans (c.lastNumber_disconnect k)

/-- A removal does not touch the counter. -/
theorem lastNumber_remove (c : Circuit) (id : ComponentId) :
    (c.remove id).lastNumber = c.lastNumber := by
  unfold remove remove?
  split
  · exact c.lastNumber_disconnectAll (c.incident id)
  · rfl

theorem lastNumber_free (c : Circuit) (target : ComponentId) (slot : Nat) :
    (c.free target slot).lastNumber = c.lastNumber := by
  rcases free_cases c target slot with ⟨_, k, _, _, hfree⟩ | ⟨_, hfree⟩ <;> rw [hfree]
  exact c.lastNumber_disconnect k

theorem lastNumber_le_add (c : Circuit) (x : Component) :
    c.lastNumber ≤ (c.add x).2.lastNumber := by
  unfold add
  split
  · exact Nat.le_of_lt (c.isFirstFree_freshComponentNumber x.kind.category).above
  · exact Nat.le_of_eq (c.lastNumber_remove x.id).symm

/-- The name of a new wire is made of the number that is found once its slot was freed. -/
theorem eq_wireName_of_wireUp {loopsAllowed : Bool} {source : ComponentId}
    (hd : c.wireUp loopsAllowed source target slot = .ok (k, d)) :
    k = wireName (c.free target slot).freshWireNumber := by
  unfold wireUp at hd
  split at hd
  · cases hd
  · exact (congrArg Prod.fst (Except.ok.inj hd)).symm

/-- A new wire raises the counter to its own number. -/
theorem lastNumber_of_wireUp {loopsAllowed : Bool} {source : ComponentId}
    (hd : c.wireUp loopsAllowed source target slot = .ok (k, d)) :
    c.lastNumber < d.lastNumber ∧ k = wireName d.lastNumber := by
  have habove := (c.free target slot).isFirstFree_freshWireNumber.above
  rw [lastNumber_free] at habove
  rw [eq_wireName_of_wireUp hd, (wireUp_eq_ok hd).2]
  exact ⟨habove, rfl⟩

/-- A component without a name changes nothing but that it is there. -/
theorem component?_add_unnamed {x : Component} (hid : x.id = "") (a : ComponentId) :
    (c.add x).2.component? a =
      if (c.add x).1 = a then some (x.withId (c.add x).1).unplugged else c.component? a := by
  rw [add, if_pos hid]
  exact component?_place { c with lastNumber := c.freshComponentNumber x.kind.category }
    (x.withId (componentName x.kind.category (c.freshComponentNumber x.kind.category))) a

end Circuit

/-- No change sets the counter back. -/
theorem Change.lastNumber_le {loopsAllowed : Bool} {c d : Circuit} (h : Change loopsAllowed c d) :
    c.lastNumber ≤ d.lastNumber := by
  cases h with
  | state hframe => exact Nat.le_of_eq (congrArg Circuit.Frame.lastNumber hframe).symm
  | @add x _ => exact c.lastNumber_le_add x
  | remove id => exact Nat.le_of_eq (c.lastNumber_remove id).symm
  | disconnect k => exact Nat.le_of_eq (c.lastNumber_disconnect k).symm
  | clear => exact Nat.le_refl _
  | wireUp hd => exact Nat.le_of_lt (Circuit.lastNumber_of_wireUp hd).1

/-! ## Runs -/

namespace Edit

variable {c d : Circuit} {e : Edit} {k : WireId}

/-- The attempt to connect that an edit is. -/
def attempt? : Edit → Circuit → Option (Except WiringError (WireId × Circuit))
  | connectPorts source sourcePort target targetPort, c =>
    some (c.connectPorts source sourcePort target targetPort)
  | connect source target slot, c => some (c.connect source target slot)
  | force source target slot, c => some (c.force source target slot)
  | _, _ => none

/-- The name that a successful attempt to connect returns. -/
def issued? (e : Edit) (c : Circuit) : Option WireId :=
  (e.attempt? c).bind fun attempt => attempt.toOption.map (·.1)

/-- The names that the successful attempts to connect of a run return, in turn. -/
def issuedAll : List Edit → Circuit → List WireId
  | [], _ => []
  | e :: edits, c => (e.issued? c).toList ++ issuedAll edits (e.apply c)

/-- An attempt that succeeds attaches a wire, and that is what the edit does. -/
theorem apply_of_attempt (h : e.attempt? c = some (.ok (k, d))) : e.apply c = d ∧
    ∃ loopsAllowed source target slot, c.wireUp loopsAllowed source target slot = .ok (k, d) := by
  cases e <;> simp only [attempt?, Option.some.injEq, reduceCtorEq] at h
  case connectPorts source sourcePort target targetPort =>
    refine ⟨by rw [apply, h, settled], false, source, target, targetPort.index, ?_⟩
    unfold Circuit.connectPorts at h
    split at h
    · exact h
    · cases h
  case connect source target slot =>
    exact ⟨by rw [apply, h, settled], false, source, target, slot, h⟩
  case force source target slot =>
    exact ⟨by rw [apply, h, settled], true, source, target, slot, h⟩

/-- The name of a new wire is made of the latest number, which is a new one. -/
theorem lastNumber_of_issued (h : e.issued? c = some k) :
    c.lastNumber < (e.apply c).lastNumber ∧ k = Circuit.wireName (e.apply c).lastNumber := by
  obtain ⟨attempt, hattempt, hk⟩ := Option.bind_eq_some_iff.1 h
  obtain ⟨⟨j, d⟩, hd, rfl⟩ := Option.map_eq_some_iff.1 hk
  obtain ⟨happly, _, _, _, _, hwire⟩ :=
    apply_of_attempt (hattempt.trans (congrArg some (ok_of_toOption hd)))
  rw [happly]
  exact Circuit.lastNumber_of_wireUp hwire

/-- The names that a run returns are made of numbers that increase, from above the latest number
before the run. -/
theorem exists_numbers (h : c.WellWired) (edits : List Edit) : ∃ numbers : List Nat,
    issuedAll edits c = numbers.map Circuit.wireName ∧ numbers.Pairwise (· < ·) ∧
      ∀ n ∈ numbers, c.lastNumber < n := by
  induction edits generalizing c with
  | nil => exact ⟨[], rfl, .nil, fun _ hn => nomatch hn⟩
  | cons e edits ih =>
      obtain ⟨numbers, hissued, hincrease, habove⟩ := ih ((e.change h).wellWired h)
      have hlater : ∀ n ∈ numbers, c.lastNumber < n := fun n hn =>
        Nat.lt_of_le_of_lt (e.change h).lastNumber_le (habove n hn)
      cases hk : e.issued? c with
      | none =>
          refine ⟨numbers, ?_, hincrease, hlater⟩
          rw [issuedAll, hk, hissued]
          rfl
      | some k =>
          obtain ⟨hlt, rfl⟩ := lastNumber_of_issued hk
          refine ⟨(e.apply c).lastNumber :: numbers, ?_, List.pairwise_cons.2 ⟨habove, hincrease⟩,
            List.forall_mem_cons.2 ⟨hlt, hlater⟩⟩
          rw [issuedAll, hk, hissued]
          rfl

theorem nodup_issuedAll (h : c.WellWired) (edits : List Edit) : (issuedAll edits c).Nodup := by
  obtain ⟨numbers, hissued, hincrease, -⟩ := exists_numbers h edits
  rw [hissued]
  exact List.Nodup.map Circuit.wireName_injective (hincrease.imp Nat.ne_of_lt)

end Edit

/-- Generated names are fresh for life. Whatever edits are made of a reachable circuit, the names
that successful connections return are all different. After any of them, a search that counts up
from the latest number until a name is free comes to an end, for components of each category and,
once a slot was freed, for wires; its only answer is the number that the next name is made of, and
it needs one more try than there are names at most. A component without a name is given one that
is not empty and that no component has, so all components stay what they are. -/
theorem generated_names_are_fresh {c : Circuit} (h : c.Reachable) (edits : List Edit) :
    let d := Edit.applyAll edits c
    (Edit.issuedAll edits c).Nodup ∧
    (∀ category n, Stops (tryNext (d.componentFree category)) d.lastNumber n ↔
      n = d.freshComponentNumber category) ∧
    (∀ category, d.freshComponentNumber category ≤ d.lastNumber + d.components.size + 1) ∧
    (∀ target slot,
      let freed := d.free target slot
      (∀ n, Stops (tryNext freed.wireFree) freed.lastNumber n ↔ n = freed.freshWireNumber) ∧
        freed.freshWireNumber ≤ freed.lastNumber + freed.wires.size + 1 ∧
        ∀ source k e, d.connect source target slot = .ok (k, e) ∨
          d.force source target slot = .ok (k, e) → k = Circuit.wireName freed.freshWireNumber) ∧
    ∀ x : Component, x.id = "" →
      let added := d.add x
      added.1 = Circuit.componentName x.kind.category (d.freshComponentNumber x.kind.category) ∧
        added.1 ≠ "" ∧ d.component? added.1 = none ∧
        added.2.component? added.1 = some (x.withId added.1).unplugged ∧
        ∀ id y, d.component? id = some y → added.2.component? id = some y := by
  intro d
  refine ⟨Edit.nodup_issuedAll h.wellWired edits,
    fun category n => (d.isFirstFree_freshComponentNumber category).stops_iff,
    fun category => firstFree_le _ _ _, fun target slot => ?_, fun x hid => ?_⟩
  · intro freed
    refine ⟨fun n => freed.isFirstFree_freshWireNumber.stops_iff, firstFree_le _ _ _,
      fun source k e hd => ?_⟩
    exact hd.elim Circuit.eq_wireName_of_wireUp Circuit.eq_wireName_of_wireUp
  · intro added
    have hnew : d.component? added.1 = none := (Circuit.plain_add_unnamed hid).1
    refine ⟨congrArg Prod.fst (if_pos hid), d.add_fst_ne_empty x, hnew, ?_, fun id y hy => ?_⟩
    · exact (Circuit.component?_add_unnamed hid added.1).trans (if_pos rfl)
    · have hne : added.1 ≠ id := by
        rintro rfl
        rw [hnew] at hy
        cases hy
      exact (Circuit.component?_add_unnamed hid id).trans ((if_neg hne).trans hy)

/-- A run that takes names ahead of the counter, lets one wire give way to another and clears the
circuit between two connections. -/
def crowdedRun : List Edit :=
  [.add ((Component.gate .not .origin).withId "gate-2") (by decide),
    .add (Component.source .switch .origin) (by decide),
    .add (Component.gate .not .origin) (by decide),
    .connect "input-1" "gate-2" 0, .connect "gate-3" "gate-2" 0, .disconnect "connection-5",
    .clear, .add (Component.source .switch .origin) (by decide),
    .add ((Component.gate .nor .origin).withId "gate-8") (by decide),
    .connect "input-6" "gate-8" 1, .remove "input-6",
    .add ((Component.gate .and .origin).withId "gate-9") (by decide)]

/-- The names of the crowded run are those of three different numbers, and after it a gate without
a name passes over a name that is taken. -/
theorem generated_names_are_fresh_crowdedRun : Circuit.empty.Reachable ∧
    Edit.issuedAll crowdedRun .empty = ["connection-4", "connection-5", "connection-7"] ∧
    (Edit.issuedAll crowdedRun .empty).Nodup ∧
    let d := Edit.applyAll crowdedRun .empty
    Stops (tryNext (d.componentFree "gate")) 7 10 ∧
    (d.add (Component.gate .not .origin)).1 = "gate-10" ∧ d.component? "gate-10" = none := by
  have hreach : Circuit.empty.Reachable := reachable_applyAll []
  obtain ⟨hnodup, hsearch, -, -, hadd⟩ := generated_names_are_fresh hreach crowdedRun
  have hnumber : (Edit.applyAll crowdedRun .empty).lastNumber = 7 := by decide +kernel
  have hname : ((Edit.applyAll crowdedRun .empty).add (Component.gate .not .origin)).1 =
      "gate-10" := by decide +kernel
  refine ⟨hreach, by decide +kernel, hnodup, ?_, hname, ?_⟩
  · have hstops := (hsearch "gate" 10).2 (by decide +kernel)
    rwa [hnumber] at hstops
  · exact hname ▸ (hadd (Component.gate .not .origin) rfl).2.2.1

end LogicCircuit
