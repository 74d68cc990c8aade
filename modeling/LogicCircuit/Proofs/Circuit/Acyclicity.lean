import LogicCircuit.Proofs.Circuit.Edges
import LogicCircuit.Proofs.Circuit.Origins

/-!
# Circuits without feedback

As long as no wire is forced, the wires of a circuit never form a cycle. The check that
`Circuit.connect` makes is local: it asks whether the target already leads to the source, before
the old wire leaves the slot. `acyclic_wireUp` is the step that needs it, every other change only
takes wires away, and `acyclic_of_unforced` is the result for all runs and all loaders.
-/

namespace LogicCircuit

open Edit (Unforced)

variable {c d : Circuit} {source target : ComponentId} {k : WireId} {slot : Nat}

namespace Circuit

/-- A wire would close a cycle exactly if its target already leads to its source. -/
theorem wouldCreateCycle_iff (h : c.WellWired) :
    c.wouldCreateCycle source target ↔ c.readerGraph.Reaches target source := by
  unfold wouldCreateCycle
  rw [decide_eq_true_iff, Traversal.mem_closed_ofStarts_iff h.supported_readerGraph]
  simp

/-- A circuit whose wires another one has is without cycles if the other is. -/
theorem acyclic_of_wires (hc : c.readerGraph.Acyclic)
    (hwires : ∀ k w, d.wire? k = some w → c.wire? k = some w) : d.readerGraph.Acyclic := by
  refine hc.of_le fun a b hb => ?_
  obtain ⟨k, w, hw, hend⟩ := mem_next_readerGraph_iff.1 hb
  exact mem_next_readerGraph_iff.2 ⟨k, w, hwires k w hw, hend⟩

/-- A wire that passes the check closes no cycle. The check is made while the old wire is still on
the slot, which can only make it stricter. -/
theorem acyclic_wireUp (h : c.WellWired) (hc : c.readerGraph.Acyclic)
    (hd : c.wireUp false source target slot = .ok (k, d)) : d.readerGraph.Acyclic := by
  obtain ⟨hnone, rfl⟩ := wireUp_eq_ok hd
  obtain ⟨_, _, _, _, _, _, _, hcheck⟩ := objection?_eq_none hnone
  have hback : ¬ c.readerGraph.Reaches target source := fun hreaches => by
    rw [(wouldCreateCycle_iff h).2 hreaches] at hcheck
    exact absurd (hcheck rfl) (by simp)
  refine Graph.acyclic_of_one_more_edge hc hback fun a b hb => ?_
  obtain ⟨j, w, hw, hsource, htarget⟩ := mem_next_readerGraph_iff.1 hb
  rcases wire?_attach_cases hw with ⟨_, rfl⟩ | hw
  · exact .inr ⟨hsource.symm, htarget.symm⟩
  · exact .inl (mem_next_readerGraph_iff.2 ⟨j, w, wire?_of_free hw, hsource, htarget⟩)

/-- No change closes a cycle unless it forces a wire. -/
theorem acyclic_change (h : c.WellWired) (hchange : Change false c d)
    (hc : c.readerGraph.Acyclic) : d.readerGraph.Acyclic := by
  cases hchange with
  | state hframe => exact readerGraph_of_frame hframe ▸ hc
  | add hx => exact acyclic_of_wires hc fun k w => wire?_of_add
  | remove id => exact acyclic_of_wires hc fun k w => wire?_of_remove
  | disconnect k => exact acyclic_of_wires hc fun j w hw => (wire?_disconnect_eq_some_iff.1 hw).2
  | clear => exact acyclic_of_wires hc fun k w hw => nomatch hw
  | wireUp hd => exact acyclic_wireUp h hc hd

/-- Without components there is no cycle. -/
theorem acyclic_empty : empty.readerGraph.Acyclic := by
  rintro a (hb | ⟨hb, _⟩) <;> cases hb

end Circuit

/-- Where no wire is forced, no run from the empty circuit closes a cycle. -/
theorem Run.acyclic (h : Run Unforced .empty c) : c.readerGraph.Acyclic := by
  refine (h.keeps (P := fun c => c.readerGraph.Acyclic) (fun x c d hx hc hchange => ?_) .empty
    Circuit.acyclic_empty).2
  rw [hx] at hchange
  exact Circuit.acyclic_change hc hchange

/-- In every circuit that operations lead to, from a new or a loaded circuit and without forcing a
wire, the wires form no cycle; a loaded circuit is one of them. -/
theorem acyclic_of_unforced (h : Arises Unforced c) : c.readerGraph.Acyclic :=
  (h.run fun _ hx => hx).acyclic

/-- Three inverters in a row. The wire from the last to the first is refused as long as the first
drives the second, and is accepted after the switch has taken over. -/
def inverterRow : Circuit :=
  Edit.applyAll
    [.add ((Component.gate .not .origin).withId "a") (by decide),
      .add ((Component.gate .not .origin).withId "b") (by decide),
      .add ((Component.gate .not .origin).withId "c") (by decide),
      .add ((Component.source .switch .origin).withId "s") (by decide),
      .connect "a" "b" 0, .connect "b" "c" 0, .connect "c" "a" 0, .connect "s" "b" 0,
      .connect "c" "a" 0, .connect "c" "b" 0]
    .empty

/-- The row of inverters has three wires and no cycle. -/
theorem acyclic_inverterRow : Arises Unforced inverterRow ∧ inverterRow.wires.size = 3 ∧
    inverterRow.readerGraph.Acyclic := by
  have harises : Arises Unforced inverterRow :=
    .new (.applyAll (by simp [Unforced, Edit.mayLoop]) _)
  exact ⟨harises, by decide +kernel, acyclic_of_unforced harises⟩

end LogicCircuit
