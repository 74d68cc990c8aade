import LogicCircuit.Proofs.Circuit.Objections

/-!
# Rerouting

Slots that one component drives are driven by another one instead, which leads to it. Whatever
slots have been taken over so far, the wires lead nowhere they did not lead before
(`Rerouted.path`), so the next one is not refused (`Rerouted.exists_connect`), and
`Rerouted.exists_redrive` follows by induction on the slots.
-/

namespace LogicCircuit.Circuit

variable {c d : Circuit} {a b gate source target : ComponentId} {slot : Nat}

/-- Connects a component to some slots in turn, up to the first refusal. -/
def redrive (c : Circuit) (source : ComponentId) (slots : List (ComponentId × Nat)) :
    Except WiringError Circuit :=
  slots.foldlM (fun c p => (c.connect source p.1 p.2).map (·.2)) c

/-- The source drives some slots that the gate drove before; all else is as it was. -/
structure Rerouted (c d : Circuit) (gate source : ComponentId) : Prop where
  /-- The circuit is well wired. -/
  wired : d.WellWired
  /-- The components are the same. -/
  component : d.plain.component = c.plain.component
  /-- A slot has its driver, or the source in place of the gate. -/
  driver : ∀ a i, d.plain.driver a i = c.plain.driver a i ∨
    c.plain.driver a i = some gate ∧ d.plain.driver a i = some source

theorem Rerouted.refl (hc : c.WellWired) (gate source : ComponentId) :
    Rerouted c c gate source :=
  ⟨hc, rfl, fun _ _ => .inl rfl⟩

/-- What is driven is a slot of a component. -/
theorem WellWired.exists_slot (h : c.WellWired)
    (hdriver : c.plain.driver target slot = some source) :
    ∃ t, c.component? target = some t ∧ slot < t.arity := by
  obtain ⟨k, w, hw, rfl, rfl, rfl⟩ := h.plain_driver_iff.1 hdriver
  obtain ⟨t, ht, hslot⟩ := h.target hw
  exact ⟨t, ht, (List.getElem?_eq_some_iff.1 hslot).1⟩

section

variable (hc : c.WellWired) (hacyclic : c.readerGraph.Acyclic)
  (hfeeds : c.readerGraph.Path source gate)

include hc hfeeds

/-- The wires lead nowhere they did not lead before. -/
theorem Rerouted.path (h : Rerouted c d gate source) (hab : d.readerGraph.Path a b) :
    c.readerGraph.Path a b := by
  have hedge : ∀ {a b}, b ∈ d.readerGraph.next a → c.readerGraph.Path a b := by
    intro a b hb
    obtain ⟨i, hi⟩ := h.wired.mem_next_readerGraph_iff_driver.1 hb
    rcases h.driver b i with hsame | ⟨hgate, hsource⟩
    · exact .edge (hc.mem_next_readerGraph_iff_driver.2 ⟨i, hsame ▸ hi⟩)
    · obtain rfl := Option.some.inj (hsource.symm.trans hi)
      exact hfeeds.snoc (hc.mem_next_readerGraph_iff_driver.2 ⟨i, hgate⟩)
  induction hab with
  | edge hb => exact hedge hb
  | cons hb _ ih => exact (hedge hb).trans ih

include hacyclic

theorem Rerouted.acyclic (h : Rerouted c d gate source) : d.readerGraph.Acyclic :=
  fun a ha => hacyclic a (h.path hc hfeeds ha)

/-- The source is accepted at one more slot of the gate. -/
theorem Rerouted.exists_connect (h : Rerouted c d gate source)
    (hslot : c.plain.driver target slot = some gate) :
    ∃ k e, d.connect source target slot = .ok (k, e) ∧ Rerouted c e gate source ∧
      e.plain = d.plain.drive source target slot := by
  obtain ⟨t, ht, hrange⟩ := hc.exists_slot hslot
  obtain ⟨s, hs, hout⟩ : ∃ s, c.component? source = some s ∧ ¬ s.kind.isSink := by
    cases hfeeds with
    | edge hb | cons hb => exact hc.component?_driver (hc.mem_next_driverGraph_iff.2 hb)
  have htarget : c.readerGraph.Path source target :=
    hfeeds.snoc (hc.mem_next_readerGraph_iff_driver.2 ⟨slot, hslot⟩)
  -- the target leads back to the source in neither circuit
  have hback : ¬ c.readerGraph.Reaches target source := by
    rintro (rfl | hback)
    · exact hacyclic _ htarget
    · exact hacyclic _ (htarget.trans hback)
  have hne : source ≠ target := fun heq => hback (.inl heq.symm)
  have hnone := objection?_true_eq_none hs ht hne hout hrange
  rw [← objection?_congr h.component] at hnone
  have hforce : d.connect source target slot = d.force source target slot :=
    ((h.wired.connect_cases hnone).resolve_left fun hreaches =>
      hback (hreaches.1.imp_right (h.path hc hfeeds))).2
  obtain ⟨k, e, he, hwired, hplain⟩ := h.wired.exists_force hnone
  refine ⟨k, e, hforce.trans he, ⟨hwired, ?_, fun a i => ?_⟩, hplain⟩
  · rw [hplain]
    exact h.component
  · have hdrive : e.plain.driver a i =
        if a = target ∧ i = slot then some source else d.plain.driver a i := by rw [hplain]; rfl
    by_cases hend : a = target ∧ i = slot
    · rw [if_pos hend] at hdrive
      exact .inr ⟨hend.1 ▸ hend.2 ▸ hslot, hdrive⟩
    · rw [if_neg hend] at hdrive
      exact hdrive ▸ h.driver a i

/-- The source is accepted at some slots of the gate in turn, and drives them in the end. -/
theorem Rerouted.exists_redrive {slots : List (ComponentId × Nat)}
    (hslots : ∀ p ∈ slots, c.plain.driver p.1 p.2 = some gate) (h : Rerouted c d gate source) :
    ∃ e, d.redrive source slots = .ok e ∧ Rerouted c e gate source ∧
      ∀ a i, e.plain.driver a i = if (a, i) ∈ slots then some source else d.plain.driver a i := by
  induction slots generalizing d with
  | nil => exact ⟨d, rfl, h, fun a i => by simp⟩
  | cons p slots ih =>
      obtain ⟨k, d', hconnect, h', hplain⟩ :=
        h.exists_connect hc hacyclic hfeeds (hslots p List.mem_cons_self)
      obtain ⟨e, he, hrerouted, hdriver⟩ :=
        ih (fun q hq => hslots q (List.mem_cons_of_mem _ hq)) h'
      refine ⟨e, ?_, hrerouted, fun a i => ?_⟩
      · rw [redrive, List.foldlM_cons, hconnect]
        exact he
      · rw [hdriver, hplain]
        show (if _ then _ else if a = p.1 ∧ i = p.2 then _ else _) = _
        have hp : (a, i) = p ↔ a = p.1 ∧ i = p.2 := Prod.ext_iff
        by_cases hmem : (a, i) ∈ slots
        · simp [hmem]
        · simp [hmem, hp]

end

end LogicCircuit.Circuit
