import LogicCircuit.Circuit.Edit
import Mathlib.Data.List.Nodup
import Mathlib.Data.List.Perm.Subperm

/-!
# Generated names

The circuit numbers the names that it makes up and passes over those that are taken. The number of
candidates that it tries is one more than there are names, so one of them is free:
`component?_freshComponentNumber` and `wire?_freshWireNumber` say that a generated name is new.
-/

namespace LogicCircuit

/-- A candidate in range that is free ends the search at a free number. -/
theorem free_firstFree {free : Nat → Bool} {tries n m : Nat} (hlo : n < m)
    (hhi : m ≤ n + tries + 1) (hm : free m) : free (firstFree free tries n) := by
  induction tries generalizing n with
  | zero =>
      obtain rfl : m = n + 1 := by omega
      exact hm
  | succ tries ih =>
      unfold firstFree
      split
      case isTrue hfree => exact hfree
      case isFalse hfree =>
        have hne : m ≠ n + 1 := fun h => hfree (h ▸ hm)
        exact ih (by omega) (by omega)

/-- Of one more candidate than a roster has records, one is no name in it. -/
theorem Roster.exists_not_contains {α : Type} {name : α → String} (r : Roster name)
    {candidate : Nat → String} (hinj : Function.Injective candidate) (n : Nat) :
    ∃ m, n < m ∧ m ≤ n + r.size + 1 ∧ r.contains (candidate m) = false := by
  by_contra hall
  have htaken : ∀ m, n < m → m ≤ n + r.size + 1 → candidate m ∈ r.entries.map name := by
    intro m hlo hhi
    have hm : r.contains (candidate m) := by
      by_contra hm
      exact hall ⟨m, hlo, hhi, by simpa using hm⟩
    obtain ⟨x, hx, he⟩ := Roster.contains_iff.1 hm
    exact List.mem_map.2 ⟨x, hx, he⟩
  have hsub : (List.range' (n + 1) (r.size + 1)).map candidate ⊆ r.entries.map name := by
    intro key hkey
    obtain ⟨m, hm, rfl⟩ := List.mem_map.1 hkey
    rw [List.mem_range'_1] at hm
    exact htaken m (by omega) (by omega)
  have hrange : (List.range' (n + 1) (r.size + 1)).Nodup := List.nodup_range'
  have hnodup := hrange.map hinj
  have hle := (List.subperm_of_subset hnodup hsub).length_le
  simp only [List.length_map, List.length_range', Roster.size] at hle
  omega

/-- A number can be read off a name that ends with it. -/
theorem append_repr_injective (start : String) :
    Function.Injective fun n : Nat => start ++ n.repr := by
  intro m n h
  have hrepr : m.repr = n.repr := (String.append_right_inj start).1 h
  have hread := congrArg (fun s : String => Nat.ofDigitChars 10 s.toList 0) hrepr
  simpa only [Nat.toList_repr, Nat.ofDigitChars_ten_toDigits] using hread

namespace Circuit

theorem componentName_injective (category : String) :
    Function.Injective (componentName category) :=
  append_repr_injective (category ++ "-")

theorem wireName_injective : Function.Injective wireName :=
  append_repr_injective "connection-"

/-- A generated name is that of no component. -/
theorem component?_freshComponentNumber (c : Circuit) (category : String) :
    c.component? (componentName category (c.freshComponentNumber category)) = none := by
  obtain ⟨m, hlo, hhi, hm⟩ :=
    c.components.exists_not_contains (componentName_injective category) c.lastNumber
  let free := fun n => !c.components.contains (componentName category n)
  have hfree : free (c.freshComponentNumber category) :=
    free_firstFree hlo hhi (show free m by simp [free, hm])
  simpa [free, Roster.contains, component?] using hfree

/-- A generated name is that of no wire. -/
theorem wire?_freshWireNumber (c : Circuit) : c.wire? (wireName c.freshWireNumber) = none := by
  obtain ⟨m, hlo, hhi, hm⟩ := c.wires.exists_not_contains wireName_injective c.lastNumber
  let free := fun n => !c.wires.contains (wireName n)
  have hfree : free c.freshWireNumber := free_firstFree hlo hhi (show free m by simp [free, hm])
  simpa [free, Roster.contains, wire?] using hfree

end Circuit

end LogicCircuit
