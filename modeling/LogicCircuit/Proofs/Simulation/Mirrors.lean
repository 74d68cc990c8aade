import LogicCircuit.Proofs.Simulation.Levels

/-!
# Circuits that mirror each other

A relation between the components of two circuits under which kinds respond alike and slots are
driven alike carries values over: `Mirrors.denote` goes by induction along the order of evaluation
of the first circuit. Slots are driven alike if related components drive them, or if the same bit
is on them anyway, so an empty slot may be mirrored by a constant. What a component shows after a
pass depends on its kind and on the values that drive it (`WellWired.value_evaluate`).
-/

namespace LogicCircuit

/-- What a component of some kind shows for the bits on its slots. -/
def Kind.shown : Kind → List Bool → Value
  | gate g, bits => .bit (g.eval bits)
  | source s, _ => .bit s.level
  | sink s, bits => s.kind.shown bits

/-- What kinds that are blank alike show is alike, for sources as long as they are at the same
level. -/
theorem Kind.shown_eq_of_blank {k l : Kind} (hblank : k.blank = l.blank)
    (hlevel : k.level? = l.level?) (bits : List Bool) : k.shown bits = l.shown bits := by
  have hshown : ∀ s : SinkKind, s.blank.shown bits = s.shown bits := fun s => by cases s <;> rfl
  cases k <;> cases l <;>
    simp only [blank, gate.injEq, source.injEq, sink.injEq, reduceCtorEq] at hblank
  case gate.gate g g' => rw [hblank]
  case source.source s t => exact congrArg Value.bit (Option.some.inj hlevel)
  case sink.sink s t =>
    have hkinds : s.kind.blank = t.kind.blank := congrArg Sink.kind hblank
    show s.kind.shown bits = t.kind.shown bits
    rw [← hshown s.kind, hkinds, hshown t.kind]

/-- After an evaluation a component shows what its kind shows for the bits on its slots. -/
theorem Component.WellFormed.value_evaluate {x : Component} (hx : x.WellFormed) {bits : List Bool}
    (hbits : bits.length = x.kind.arity) : (x.evaluate bits).value = x.kind.shown bits := by
  unfold evaluate
  cases hk : x.kind with
  | gate g => simp only [value, Kind.shown]
  | source s => simp only [value, Kind.shown]
  | sink s =>
      have hlength : s.bits.length = bits.length := by rw [hx.bits s hk, hbits, hk]; rfl
      exact Sink.value_receive hlength

namespace Circuit

variable {c d : Circuit} {a b id : ComponentId} {x : Component}

/-- Where no cycle leads into a component, a pass evaluates it on the values of its drivers. -/
theorem WellWired.evaluate_of_acyclicCone (h : c.WellWired) {s : Simulator} (hs : s.BelongsTo c)
    (hx : c.component? id = some x) (hcone : c.AcyclicCone id) :
    (s.evaluate c).2.2.component? id = some (x.evaluate (c.denotedInputs id)) := by
  rw [h.component?_evaluate hs hx]
  refine congrArg (fun bits => some (x.evaluate bits)) (List.map_congr_left fun driver hd => ?_)
  cases driver with
  | none => rfl
  | some a =>
      have hnext := mem_next_of_mem_driversOf hd
      obtain ⟨y, hy, -⟩ := h.component?_driver hnext
      rw [readDuring, if_pos (h.precedes_of_acyclicCone hcone hnext),
        h.outputOf_evaluate hs hy (hcone.driver hnext)]
      rfl

/-- Where no cycle leads into a component, it shows after a pass what its kind shows for the
values of its drivers. -/
theorem WellWired.value_evaluate (h : c.WellWired) {s : Simulator} (hs : s.BelongsTo c)
    (hx : c.component? id = some x) (hcone : c.AcyclicCone id) :
    ((s.evaluate c).2.2.component? id).map (·.value) =
      some (x.kind.shown (c.denotedInputs id)) := by
  rw [h.evaluate_of_acyclicCone hs hx hcone, Option.map_some,
    (h.formed hx).value_evaluate (h.length_denotedInputs hx)]

/-- Where there are no cycles, a pass leaves the values of the drivers on all slots. -/
theorem WellWired.inputValues_evaluate (h : c.WellWired) {s : Simulator} (hs : s.BelongsTo c)
    (hcone : ∀ a, c.AcyclicCone a) (id : ComponentId) :
    (s.evaluate c).2.2.inputValues id = c.denotedInputs id := by
  rw [inputValues, driversOf_of_frame (frame_evaluate s c), Circuit.denotedInputs]
  refine List.map_congr_left fun driver hd => ?_
  cases driver with
  | none => rfl
  | some a =>
      obtain ⟨y, hy, -⟩ := h.component?_driver (mem_next_of_mem_driversOf hd)
      exact h.outputOf_evaluate hs hy (hcone a)

/-- The value that drives a slot; an empty slot reads as false. -/
def read (c : Circuit) (driver : Option ComponentId) : Bool := driver.elim false c.denote

/-- Components are related that respond alike and are driven alike: by related components, or so
that the same bit is on the slots. -/
structure Mirrors (c d : Circuit) (R : ComponentId → ComponentId → Prop) : Prop where
  component : ∀ {a b}, R a b → ∃ x y, c.component? a = some x ∧ d.component? b = some y ∧
    y.kind.respond = x.kind.respond
  /-- Related components have as many slots. -/
  length : ∀ {a b}, R a b → (d.driversOf b).length = (c.driversOf a).length
  driver : ∀ {a b}, R a b → ∀ (i : Nat) (o p : Option ComponentId),
    (c.driversOf a)[i]? = some o → (d.driversOf b)[i]? = some p →
      (∃ a' b', o = some a' ∧ p = some b' ∧ R a' b') ∨ d.read p = c.read o

/-- Related components have the same values, as long as no cycle leads into them. -/
theorem Mirrors.denote {R : ComponentId → ComponentId → Prop} (h : Mirrors c d R)
    (hwired : c.WellWired) (hd : ∀ b, d.AcyclicCone b) {a b : ComponentId}
    (hcone : c.AcyclicCone a) (hab : R a b) : d.denote b = c.denote a := by
  obtain ⟨x, y, hx, hy, hrespond⟩ := h.component hab
  rw [denote_eq hcone hx, denote_eq (hd b) hy, hrespond]
  refine congrArg _ (List.ext_getElem? fun i => ?_)
  simp only [denotedInputs, List.getElem?_map]
  cases ho : (c.driversOf a)[i]? with
  | none =>
      rw [List.getElem?_eq_none_iff, ← h.length hab, ← List.getElem?_eq_none_iff] at ho
      rw [ho]
      rfl
  | some o =>
      have hlt := h.length hab ▸ (List.getElem?_eq_some_iff.1 ho).1
      have hp := List.getElem?_eq_getElem hlt
      rw [hp]
      refine congrArg some ?_
      show d.read _ = c.read o
      rcases h.driver hab i o _ ho hp with ⟨a', b', rfl, hb', hab'⟩ | hread
      · have hnext := mem_next_of_mem_driversOf (List.mem_of_getElem? ho)
        -- the driver comes first in the order of evaluation
        have hbefore := hwired.precedes_of_acyclicCone hcone hnext
        rw [hb']
        exact Mirrors.denote h hwired hd (hcone.driver hnext) hab'
      · exact hread
termination_by c.evaluationOrder.closed.idxOf a
decreasing_by exact hbefore

/-- The same bits arrive at related components, as long as there are no cycles. -/
theorem Mirrors.denotedInputs {R : ComponentId → ComponentId → Prop} (h : Mirrors c d R)
    (hwired : c.WellWired) (hc : ∀ a, c.AcyclicCone a) (hd : ∀ b, d.AcyclicCone b)
    (hab : R a b) : d.denotedInputs b = c.denotedInputs a := by
  have hlength : (d.denotedInputs b).length = (c.denotedInputs a).length := by
    rw [Circuit.denotedInputs, Circuit.denotedInputs, List.length_map, List.length_map,
      h.length hab]
  refine List.ext_getElem hlength fun i hb ha => ?_
  rw [Circuit.denotedInputs, List.length_map] at ha hb
  show (d.denotedInputs b)[i] = (c.denotedInputs a)[i]
  simp only [Circuit.denotedInputs, List.getElem_map]
  rcases h.driver hab i _ _ (List.getElem?_eq_getElem ha) (List.getElem?_eq_getElem hb) with
    ⟨a', b', ha', hb', hab'⟩ | hread
  · rw [ha', hb']
    exact h.denote hwired hd (hc a') hab'
  · exact hread

end Circuit

end LogicCircuit
