import LogicCircuit.Proofs.Simulation.Ticks

/-!
# What a snapshot tells

A snapshot lists the outputs of the components by name. The parts of two snapshots of circuits
with the same names are equally long, so the snapshots agree exactly if all outputs do
(`Circuit.snapshot_eq_iff`).
-/

namespace LogicCircuit

/-- Texts that are joined from equally long parts agree only if the parts do. -/
theorem eq_of_intercalate_eq {sep : List Char} {xs ys : List (List Char)}
    (hlengths : xs.map List.length = ys.map List.length)
    (h : sep.intercalate xs = sep.intercalate ys) : xs = ys := by
  induction xs generalizing ys with
  | nil =>
      cases ys with
      | nil => rfl
      | cons y ys => cases hlengths
  | cons x xs ih =>
      cases ys with
      | nil => cases hlengths
      | cons y ys =>
          obtain ⟨hlength, hlengths⟩ := List.cons.inj hlengths
          cases xs with
          | nil =>
              obtain rfl : ys = [] := List.map_eq_nil_iff.1 hlengths.symm
              simpa using h
          | cons x' xs =>
              cases ys with
              | nil => cases hlengths
              | cons y' ys =>
                  rw [List.intercalate_cons_cons, List.intercalate_cons_cons] at h
                  obtain ⟨hfirst, hrest⟩ := List.append_inj h (by simp [hlength])
                  rw [List.append_cancel_right hfirst, ih hlengths hrest]

namespace Circuit

variable {c d : Circuit}

/-- The part of a snapshot for one component. -/
def snapshotPart (id : ComponentId) (on : Bool) : String := id ++ ":" ++ if on then "1" else "0"

/-- A snapshot lists the outputs by name. -/
theorem snapshot_eq (c : Circuit) :
    c.snapshot =
      ",".intercalate (c.ids.map fun id => snapshotPart id (c.outputOf (some id))) := by
  rw [snapshot, ids, List.map_map]
  refine congrArg _ (List.map_congr_left fun x hx => ?_)
  have hlook : c.component? x.id = some x := Roster.mem_entries_iff.1 hx
  simp only [Function.comp_apply, snapshotPart, outputOf, Option.bind_some, hlook]

theorem length_snapshotPart (id : ComponentId) (on : Bool) :
    (snapshotPart id on).toList.length = id.toList.length + 2 := by
  cases on <;> simp [snapshotPart]

theorem snapshotPart_inj {id : ComponentId} {on on' : Bool} :
    snapshotPart id on = snapshotPart id on' ↔ on = on' := by
  cases on <;> cases on' <;> simp [snapshotPart, String.ext_iff]

/-- What is no component puts out nothing. -/
theorem outputOf_of_not_mem_ids {id : ComponentId} (h : id ∉ c.ids) :
    c.outputOf (some id) = false := by
  cases hx : c.component? id with
  | none => simp [outputOf, hx]
  | some x => exact absurd (mem_ids_of_component? hx) h

/-- Circuits with the same names have the same snapshot exactly if all outputs agree. -/
theorem snapshot_eq_iff (h : d.ids = c.ids) :
    d.snapshot = c.snapshot ↔ ∀ id, d.outputOf (some id) = c.outputOf (some id) := by
  rw [snapshot_eq, snapshot_eq, h]
  constructor
  · intro heq id
    have htexts := congrArg String.toList heq
    rw [String.toList_intercalate, String.toList_intercalate, List.map_map, List.map_map]
      at htexts
    have hparts := eq_of_intercalate_eq (by simp [length_snapshotPart]) htexts
    by_cases hid : id ∈ c.ids
    · exact snapshotPart_inj.1 (String.toList_injective (List.map_inj_left.1 hparts id hid))
    · rw [outputOf_of_not_mem_ids hid, outputOf_of_not_mem_ids (h.symm ▸ hid)]
  · intro houtputs
    simp only [houtputs]

end Circuit

end LogicCircuit
