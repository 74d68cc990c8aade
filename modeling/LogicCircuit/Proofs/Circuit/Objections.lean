import LogicCircuit.Proofs.Circuit.DriverMap

/-!
# Which wires are refused

A wire is refused for what its ends are, or because it would close a cycle. The first reason
depends on the components alone (`objection?_congr`), the second on the wires that are there
(`WellWired.connect_cases`). Where a wire is not refused, `Circuit.connect` and `Circuit.force` do
the same. The edges of a circuit are read off its driver map, so a circuit with more drivers leads
to more places (`WellWired.reaches_mono`).
-/

namespace LogicCircuit

/-- Components that are alike without their wires differ in their wires alone. -/
theorem Component.eq_of_unplugged {x y : Component} (h : x.unplugged = y.unplugged) :
    x.id = y.id ∧ x.kind = y.kind ∧ x.label = y.label ∧ x.position = y.position ∧
      x.arity = y.arity := by
  have hfield : ∀ {α : Type} (field : Component → α), field x.unplugged = field y.unplugged :=
    fun field => congrArg field h
  have harity : x.arity = y.arity := by
    simpa [unplugged, arity] using hfield fun z => z.slots.length
  exact ⟨hfield (·.id), hfield (·.kind), hfield (·.label), hfield (·.position), harity⟩

namespace Circuit

variable {c d : Circuit} {a b source target : ComponentId} {slot : Nat} {reason : WiringError}

/-! ## Edges and drivers -/

/-- A component reaches those whose slots it drives. -/
theorem WellWired.mem_next_readerGraph_iff_driver (h : c.WellWired) :
    b ∈ c.readerGraph.next a ↔ ∃ i, c.plain.driver b i = some a := by
  rw [mem_next_readerGraph_iff]
  constructor
  · rintro ⟨k, w, hw, rfl, rfl⟩
    exact ⟨w.slot, h.plain_driver hw⟩
  · rintro ⟨i, hi⟩
    obtain ⟨k, w, hw, hsource, htarget, -⟩ := h.plain_driver_iff.1 hi
    exact ⟨k, w, hw, hsource, htarget⟩

/-- A circuit with all drivers of another has its edges. -/
theorem WellWired.next_readerGraph_mono (h : c.WellWired) (hd : d.WellWired)
    (hle : ∀ a i b, c.plain.driver a i = some b → d.plain.driver a i = some b) (a : ComponentId) :
    ∀ b ∈ c.readerGraph.next a, b ∈ d.readerGraph.next a := by
  intro b hb
  obtain ⟨i, hi⟩ := h.mem_next_readerGraph_iff_driver.1 hb
  exact hd.mem_next_readerGraph_iff_driver.2 ⟨i, hle _ _ _ hi⟩

/-- A circuit with all drivers of another leads wherever that one leads. -/
theorem WellWired.reaches_mono (h : c.WellWired) (hd : d.WellWired)
    (hle : ∀ a i b, c.plain.driver a i = some b → d.plain.driver a i = some b)
    (hab : c.readerGraph.Reaches a b) : d.readerGraph.Reaches a b :=
  hab.imp_right fun hpath => hpath.mono (h.next_readerGraph_mono hd hle)

/-- A circuit whose drivers another one has is without cycles if the other is. -/
theorem WellWired.acyclic_of_drivers (h : c.WellWired) (hd : d.WellWired)
    (hle : ∀ a i b, c.plain.driver a i = some b → d.plain.driver a i = some b)
    (hacyclic : d.readerGraph.Acyclic) : c.readerGraph.Acyclic :=
  hacyclic.of_le (h.next_readerGraph_mono hd hle)

/-! ## Objections -/

/-- Unless loops are allowed, a wire that closes a cycle is refused as well. -/
theorem objection?_false (c : Circuit) (source target : ComponentId) (slot : Nat) :
    c.objection? false source target slot = (c.objection? true source target slot).or
      (if c.wouldCreateCycle source target then some (.wouldCreateCycle source target)
        else none) := by
  unfold objection?
  cases c.component? source with
  | none => rfl
  | some s =>
      cases c.component? target with
      | none => rfl
      | some t =>
          dsimp only
          repeat' split
          all_goals simp_all

/-- Where loops are allowed, a wire may lead from anything but a sink to a slot of another
component. -/
theorem objection?_true_eq_none {s t : Component} (hs : c.component? source = some s)
    (ht : c.component? target = some t) (hne : source ≠ target) (hout : ¬ s.kind.isSink)
    (hslot : slot < t.arity) : c.objection? true source target slot = none := by
  simp [objection?, hs, ht, hne, hout, hslot]

/-- Where loops are allowed, none is a reason to refuse a wire. -/
theorem objection?_true_ne_cycle (c : Circuit) (source target a b : ComponentId) (slot : Nat) :
    c.objection? true source target slot ≠ some (.wouldCreateCycle a b) := by
  unfold objection?
  split
  · simp
  · simp
  · repeat' split
    all_goals simp_all

/-- Where loops are allowed, a refusal is about the components alone. -/
theorem objection?_congr (h : d.plain.component = c.plain.component) (source target : ComponentId)
    (slot : Nat) :
    d.objection? true source target slot = c.objection? true source target slot := by
  have hlook : ∀ a, (d.component? a).map (·.unplugged) = (c.component? a).map (·.unplugged) :=
    fun a => congrFun h a
  have hsource := hlook source
  have htarget := hlook target
  unfold objection?
  cases hs : c.component? source with
  | none =>
      rw [hs, Option.map_none, Option.map_eq_none_iff] at hsource
      rw [hsource]
  | some s =>
      rw [hs, Option.map_some, Option.map_eq_some_iff] at hsource
      obtain ⟨s', hs', hss⟩ := hsource
      rw [hs']
      cases ht : c.component? target with
      | none =>
          rw [ht, Option.map_none, Option.map_eq_none_iff] at htarget
          rw [htarget]
      | some t =>
          rw [ht, Option.map_some, Option.map_eq_some_iff] at htarget
          obtain ⟨t', ht', htt⟩ := htarget
          rw [ht']
          obtain ⟨-, hkind, -⟩ := Component.eq_of_unplugged hss
          obtain ⟨-, -, -, -, harity⟩ := Component.eq_of_unplugged htt
          simp only [hkind, harity, Bool.not_true, Bool.false_and]

/-- A wire that is refused where loops are allowed is refused anyway. -/
theorem wireUp_of_objection (h : c.objection? true source target slot = some reason)
    (loopsAllowed : Bool) : c.wireUp loopsAllowed source target slot = .error reason := by
  have hsome : c.objection? loopsAllowed source target slot = some reason := by
    cases loopsAllowed with
    | true => exact h
    | false => rw [objection?_false, h, Option.some_or]
  rw [wireUp, hsome]

/-- A wire to which nothing is objected can be forced, and is then all that is new. -/
theorem WellWired.exists_force (h : c.WellWired)
    (hnone : c.objection? true source target slot = none) :
    ∃ k d, c.force source target slot = .ok (k, d) ∧ d.WellWired ∧
      d.plain = c.plain.drive source target slot := by
  have hforce : c.force source target slot =
      .ok ((c.free target slot).attach source target slot) := by
    rw [force, Circuit.wireUp, hnone]
  exact ⟨_, _, hforce, h.wireUp hforce, h.plain_wireUp hforce⟩

/-- A wire to which nothing else is objected is refused exactly if its target already leads to its
source; otherwise it is connected as if it were forced. -/
theorem WellWired.connect_cases (h : c.WellWired)
    (hnone : c.objection? true source target slot = none) :
    c.readerGraph.Reaches target source ∧
      c.connect source target slot = .error (.wouldCreateCycle source target) ∨
    ¬ c.readerGraph.Reaches target source ∧
      c.connect source target slot = c.force source target slot := by
  have hfalse := c.objection?_false source target slot
  rw [hnone, Option.none_or] at hfalse
  by_cases hback : c.readerGraph.Reaches target source
  · refine .inl ⟨hback, ?_⟩
    rw [if_pos ((wouldCreateCycle_iff h).2 hback)] at hfalse
    rw [connect, Circuit.wireUp, hfalse]
  · refine .inr ⟨hback, ?_⟩
    rw [if_neg fun hcycle => hback ((wouldCreateCycle_iff h).1 hcycle)] at hfalse
    rw [connect, force, Circuit.wireUp, Circuit.wireUp, hfalse, hnone]

end Circuit

end LogicCircuit
