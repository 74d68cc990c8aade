import LogicCircuit.Proofs.Simulation.Bench
import LogicCircuit.Table.Basic

/-!
# The truth tables of circuits that are alike

A circuit is tabulated by a new simulator, row by row, and each row starts from what the row
before it left. With loops of wires this matters, so the tables of circuits that are alike are
compared by following both runs: `Session.Together.tableRows_eq` says that they fill the same
rows, and `Circuit.Alike.tabulate_eq` that the tables are the same.
-/

namespace LogicCircuit

namespace Session.Together

variable {s s' : Simulator} {c d : Circuit}

/-- Levels are set in both sessions. -/
theorem setLevels (h : Together ⟨s, c⟩ ⟨s', d⟩) (levels : List (ComponentId × Bool)) :
    Together ⟨s, c.setLevels levels⟩ ⟨s', d.setLevels levels⟩ := by
  induction levels generalizing c d with
  | nil => exact h
  | cons level levels ih =>
      have hsetting : (Event.edit (.setLevel level.1 level.2)).KeepsTopology := rfl
      exact ih (h.perform hsetting).2

/-- The same components show a set value. -/
theorem showsSet_eq (h : Together ⟨s, c⟩ ⟨s', d⟩) : d.showsSet = c.showsSet := by
  funext id
  have hread : ∀ c : Circuit, c.showsSet id =
      ((c.unflagged.component? id).bind fun x => some x.value.isSet).any fun b => b := fun c => by
    rw [Circuit.showsSet, Circuit.component?_unflagged]
    cases c.component? id <;> rfl
  have hbind := Circuit.bind_of_outline h.outline (fun x => some x.value.isSet) (fun _ => rfl) id
  rw [hread, hread]
  exact congrArg (Option.any fun b => b) hbind

/-- The sessions fill the same rows. -/
theorem tableRows_eq (h : Together ⟨s, c⟩ ⟨s', d⟩) (inputs outputs : List ComponentId)
    (rows : List Nat) : (Circuit.tableRows inputs outputs rows s' d).1 =
      (Circuit.tableRows inputs outputs rows s c).1 := by
  induction rows generalizing s s' c d with
  | nil => rfl
  | cons row rows ih =>
      have hset := h.setLevels (inputs.zip (assignment row inputs.length))
      have hpass := (hset.perform (show Event.evaluate.KeepsTopology from trivial)).2
      exact congrArg₂ (fun shown rest => Row.mk (assignment row inputs.length)
        (outputs.map shown) :: rest) hpass.showsSet_eq (ih hpass)

end Session.Together

namespace Circuit.Alike

variable {c d : Circuit}

/-- The columns are named and ordered alike. -/
theorem named_filter (h : c.Alike d) {p : Component → Bool} (hp : ∀ x, p x.standing = p x) :
    named (d.components.entries.filter p) = named (c.components.entries.filter p) :=
  congrArg (List.mergeSort · _) (h.map_filter p _ hp fun _ => rfl)

/-- Circuits that are alike have the same truth table, loops of wires included. -/
theorem tabulate_eq (h : c.Alike d) : d.tabulate.1 = c.tabulate.1 := by
  have hinputs : d.tableInputs = c.tableInputs := by
    rw [tableInputs, tableInputs, sources, sources, List.filter_filter, List.filter_filter]
    exact h.named_filter fun _ => rfl
  have houtputs : d.tableOutputs = c.tableOutputs := h.named_filter fun _ => rfl
  have hnew := Session.Together.of_alike h .standard
  unfold tabulate
  rw [hinputs, houtputs]
  dsimp only
  split
  · rfl
  · exact congrArg (fun rows => some (TruthTable.mk _ _ rows)) (hnew.tableRows_eq _ _ _)

end Circuit.Alike

end LogicCircuit
