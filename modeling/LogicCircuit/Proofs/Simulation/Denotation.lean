import LogicCircuit.Proofs.Simulation.Order
import LogicCircuit.Proofs.Simulation.Pass
import Mathlib.Algebra.GroupWithZero.Nat

/-!
# What a pass computes

`Circuit.denote` is the value of a component by recursion on its drivers: a source has its level,
a gate its function of what drives it, a sink what it shows. It reads no output. Where no cycle
leads into a component, one pass in the order of evaluation gives it this value, whatever the
outputs were before and whatever loops there are elsewhere: `evaluate_denotes`. The reason is that
every driver has its turn first, so `denote_evaluateAll` goes by induction along the order.
-/

namespace LogicCircuit

/-- What a sink of some kind shows for the bits on its slots: a display their sum as binary
digits, any other sink its bit. -/
def SinkKind.shown : SinkKind → List Bool → Value
  | display, bits => .number (bits.zipIdx.map fun b => b.1.toNat * 2 ^ b.2).sum
  | _, bits => .bit (bits.headD false)

/-- The output of a component of some kind for the bits on its slots. -/
def Kind.respond : Kind → List Bool → Bool
  | gate g, bits => g.eval bits
  | source s, _ => s.level
  | sink s, bits => (s.kind.shown bits).isSet

/-- A number is the sum of its binary digits, each at its place. -/
theorem sum_digits (bits : List Bool) (n : Nat) :
    ((bits.zipIdx n).map fun b => b.1.toNat * 2 ^ b.2).sum = 2 ^ n * bitsToNat bits := by
  induction bits generalizing n with
  | nil => rfl
  | cons b bits ih =>
      rw [List.zipIdx_cons, List.map_cons, List.sum_cons, ih, bitsToNat, Nat.pow_succ]
      show b.toNat * 2 ^ n + 2 ^ n * 2 * bitsToNat bits = 2 ^ n * (b.toNat + 2 * bitsToNat bits)
      rw [Nat.mul_add, Nat.mul_comm b.toNat, Nat.mul_assoc]

namespace Sink

/-- Bits that arrive on all slots take the place of those that were there. -/
theorem overwrite_of_length {old new : List Bool} (h : old.length = new.length) :
    overwrite old new = new := by
  induction old generalizing new with
  | nil =>
      obtain rfl := List.length_eq_zero_iff.1 h.symm
      rfl
  | cons b old ih =>
      cases new with
      | nil => cases h
      | cons a new => exact congrArg (a :: ·) (ih (Nat.succ.inj h))

/-- A sink holds the bits that arrived on all its slots. -/
theorem bits_receive {s : Sink} {bits : List Bool} (h : s.bits.length = bits.length) :
    (s.receive bits).bits = bits :=
  overwrite_of_length h

/-- A sink shows the bits that arrived on all its slots. -/
theorem value_receive {s : Sink} {bits : List Bool} (h : s.bits.length = bits.length) :
    (s.receive bits).value = s.kind.shown bits := by
  obtain ⟨kind, old⟩ := s
  have hbits : overwrite old bits = bits := overwrite_of_length h
  cases kind with
  | display =>
      simp only [receive, value, SinkKind.remember, SinkKind.shown, hbits, sum_digits,
        Nat.pow_zero, Nat.one_mul]
  | bulb => simp only [receive, value, SinkKind.remember, SinkKind.shown, hbits]
  | probe history => simp only [receive, value, SinkKind.remember, SinkKind.shown, hbits]
  | speaker => simp only [receive, value, SinkKind.remember, SinkKind.shown, hbits]

end Sink

/-- An evaluation puts out the response of the kind to the bits on the slots. -/
theorem Component.WellFormed.output_evaluate {x : Component} (hx : x.WellFormed)
    {bits : List Bool}
    (hbits : bits.length = x.kind.arity) : (x.evaluate bits).output = x.kind.respond bits := by
  unfold evaluate
  cases hk : x.kind with
  | gate g => rfl
  | source s => rfl
  | sink s =>
      have hlength : s.bits.length = bits.length := by rw [hx.bits s hk, hbits, hk]; rfl
      simp only [Kind.respond, Sink.value_receive hlength]

/-- A component of some kind has been evaluated on some bits: a source has its level, a gate its
function of the bits, and a sink holds the bits, shows their value and is on if that is set. -/
def Component.Answers (y : Component) : Kind → List Bool → Prop
  | .source s, _ => y.kind = .source s ∧ y.output = s.level
  | .gate g, bits => y.kind = .gate g ∧ y.output = g.eval bits
  | .sink s, bits => ∃ after, y.kind = .sink after ∧ after.bits = bits ∧
      y.value = s.kind.shown bits ∧ y.output = y.value.isSet

/-- An evaluation answers the bits on the slots. -/
theorem Component.WellFormed.answers_evaluate {x : Component} (hx : x.WellFormed)
    {bits : List Bool} (hbits : bits.length = x.kind.arity) :
    (x.evaluate bits).Answers x.kind bits := by
  unfold evaluate
  cases hk : x.kind with
  | source s => exact ⟨rfl, rfl⟩
  | gate g => exact ⟨rfl, rfl⟩
  | sink s =>
      have hlength : s.bits.length = bits.length := by rw [hx.bits s hk, hbits, hk]; rfl
      exact ⟨s.receive bits, rfl, Sink.bits_receive hlength, Sink.value_receive hlength, rfl⟩

namespace Circuit

/-- The value of a component by recursion on its drivers, below the open ones of `path`; an open
component and an empty slot read as false. -/
def denoteBelow (c : Circuit) (path : List ComponentId) (id : ComponentId) : Bool :=
  match _exists : c.component? id with
  | none => false
  | some x =>
    if _new : id ∈ path then false
    else x.kind.respond ((c.driversOf id).map fun d => d.elim false fun a =>
      c.denoteBelow (id :: path) a)
termination_by Traversal.room c.driverGraph path
decreasing_by exact Traversal.room_cons_lt (mem_ids_of_component? _exists) _new

/-- The value of a component by recursion on its drivers. -/
def denote (c : Circuit) (id : ComponentId) : Bool := c.denoteBelow [] id

/-- The values of what drives the slots of a component; an empty slot reads as false. -/
def denotedInputs (c : Circuit) (id : ComponentId) : List Bool :=
  (c.driversOf id).map fun d => d.elim false c.denote

/-- No cycle leads into a component. -/
def AcyclicCone (c : Circuit) (id : ComponentId) : Prop :=
  ∀ a, c.driverGraph.Reaches id a → ¬ c.driverGraph.Path a a

/-- The circuit with other outputs. -/
def withOutputs (c : Circuit) (outputs : ComponentId → Bool) : Circuit :=
  { c with
    components := c.components.map (fun x => { x with output := outputs x.id }) fun _ => rfl }

variable {c : Circuit} {id a : ComponentId} {x : Component} {path path' : List ComponentId}

/-- The value of a component that is not open. -/
theorem denoteBelow_of_new (hx : c.component? id = some x) (hnew : id ∉ path) :
    c.denoteBelow path id = x.kind.respond ((c.driversOf id).map fun d => d.elim false fun a =>
      c.denoteBelow (id :: path) a) := by
  rw [denoteBelow]
  split
  · simp_all
  · rename_i y hy
    obtain rfl := Option.some.inj (hx.symm.trans hy)
    rw [dif_neg hnew]

/-- No cycle leads into the drivers either. -/
theorem AcyclicCone.driver (h : c.AcyclicCone id) (ha : a ∈ c.driverGraph.next id) :
    c.AcyclicCone a :=
  fun b hb => h b (.inr (hb.cons ha))

/-- Where the wires form no cycle, none leads into a component. -/
theorem WellWired.acyclicCone (h : c.WellWired) (hacyclic : c.readerGraph.Acyclic)
    (id : ComponentId) : c.AcyclicCone id :=
  fun a _ ha => hacyclic a (h.path_readerGraph_iff.2 ha)

/-- A cycle that leads into a component leads into one of its drivers first. -/
theorem AcyclicCone.of_drivers (h : ∀ a ∈ c.driverGraph.next id, c.AcyclicCone a) :
    c.AcyclicCone id := by
  have hstep : ∀ {b}, c.driverGraph.Path id b → ¬ c.driverGraph.Path b b := by
    intro b hb
    cases hb with
    | edge ha => exact h b ha b (.refl _ b)
    | cons ha hab => exact h _ ha b (.inr hab)
  rintro b (rfl | hb)
  · exact fun hcycle => hstep hcycle hcycle
  · exact hstep hb

/-- Below a component without cycles it does not matter which components are open, as long as it
does not lead to them. -/
theorem denoteBelow_eq {path path' : List ComponentId} {id : ComponentId}
    (hcone : c.AcyclicCone id)
    (hpath : ∀ b ∈ path, ¬ c.driverGraph.Reaches id b)
    (hpath' : ∀ b ∈ path', ¬ c.driverGraph.Reaches id b) :
    c.denoteBelow path id = c.denoteBelow path' id := by
  cases hx : c.component? id with
  | none =>
      rw [denoteBelow, denoteBelow]
      split <;> simp_all
  | some x =>
      have hself : ∀ {path : List ComponentId},
          (∀ b ∈ path, ¬ c.driverGraph.Reaches id b) → id ∉ path :=
        fun hopen hid => hopen id hid (.refl _ id)
      rw [denoteBelow_of_new hx (hself hpath), denoteBelow_of_new hx (hself hpath')]
      refine congrArg _ (List.map_congr_left fun d hd => ?_)
      cases d with
      | none => rfl
      | some a =>
          have hnext := mem_next_of_mem_driversOf hd
          have hbelow : ∀ {path : List ComponentId},
              (∀ b ∈ path, ¬ c.driverGraph.Reaches id b) →
                ∀ b ∈ id :: path, ¬ c.driverGraph.Reaches a b := by
            intro path hopen b hb hab
            -- a driver that led back to the component would close a cycle in its cone
            rcases List.mem_cons.1 hb with rfl | hb
            · exact hcone b (.refl _ b) (hab.cons hnext)
            · exact hopen b hb (.inr (hab.cons hnext))
          exact denoteBelow_eq (hcone.driver hnext) (hbelow hpath) (hbelow hpath')
termination_by Traversal.room c.driverGraph path
decreasing_by exact Traversal.room_cons_lt (mem_ids_of_component? hx) (hself hpath)

/-- The recursion that the value of a component satisfies where no cycle leads into it. -/
theorem denote_eq (hcone : c.AcyclicCone id) (hx : c.component? id = some x) :
    c.denote id = x.kind.respond (c.denotedInputs id) := by
  unfold denote denotedInputs
  rw [denoteBelow_of_new hx List.not_mem_nil]
  refine congrArg _ (List.map_congr_left fun d hd => ?_)
  cases d with
  | none => rfl
  | some a =>
      have hnext := mem_next_of_mem_driversOf hd
      refine denoteBelow_eq (hcone.driver hnext) (fun b hb hab => ?_) (by simp)
      obtain rfl := List.mem_singleton.1 hb
      exact hcone b (.refl _ b) (hab.cons hnext)

theorem frame_withOutputs (c : Circuit) (outputs : ComponentId → Bool) :
    (c.withOutputs outputs).frame = c.frame :=
  frame_map c _ _ fun _ => rfl

theorem component?_withOutputs (outputs : ComponentId → Bool) (hx : c.component? id = some x) :
    (c.withOutputs outputs).component? id = some { x with output := outputs id } := by
  have hlook := Roster.get?_map c.components (fun x => { x with output := outputs x.id })
    (fun _ => rfl) id
  refine hlook.trans ?_
  have hid : x.id = id := Roster.name_of_get? hx
  rw [← hid]
  exact congrArg _ (hid ▸ hx)

/-- There is one bit for each input of the component. -/
theorem WellWired.length_denotedInputs (h : c.WellWired) (hx : c.component? id = some x) :
    (c.denotedInputs id).length = x.kind.arity := by
  rw [← (h.formed hx).slots]
  simp [denotedInputs, driversOf, hx]

/-- A driver that is on no cycle has its turn before the component. -/
theorem WellWired.precedes_of_not_cycle (h : c.WellWired) (hcycle : ¬ c.driverGraph.Path a a)
    (ha : a ∈ c.driverGraph.next id) : Precedes c.evaluationOrder.closed a id := by
  obtain ⟨k, w, hw, rfl, rfl⟩ := mem_next_readerGraph_iff.1 (h.mem_next_driverGraph_iff.1 ha)
  rcases h.precedes_or_precedes_evaluationOrder hw with hearly | ⟨_, hmet⟩
  · exact hearly
  · exact absurd (h.path_readerGraph_iff.1 (h.path_of_mem_returns_evaluationOrder hmet)) hcycle

/-- Where no cycle leads into a component, its drivers have their turn before it. -/
theorem WellWired.precedes_of_acyclicCone (h : c.WellWired) (hcone : c.AcyclicCone id)
    (ha : a ∈ c.driverGraph.next id) : Precedes c.evaluationOrder.closed a id :=
  h.precedes_of_not_cycle (hcone a (.inr (.edge ha))) ha

/-- A pass evaluates a component into which no cycle leads on the values of its drivers. They had
their turn before, so the induction goes along the order. -/
theorem WellWired.denote_evaluateAll {c : Circuit} (h : c.WellWired)
    (outputs : ComponentId → Bool) {id : ComponentId} {x : Component}
    (hcone : c.AcyclicCone id) (hx : c.component? id = some x) :
    ((c.withOutputs outputs).evaluateAll c.evaluationOrder.closed).2.component? id =
      some (({ x with output := outputs id } : Component).evaluate (c.denotedInputs id)) := by
  have hperm := h.perm_closed_evaluationOrder
  have hid : id ∈ c.evaluationOrder.closed := hperm.mem_iff.2 (mem_ids_of_component? hx)
  have horder := hperm.nodup_iff.2 c.nodup_ids
  rw [component?_evaluateAll horder hid (component?_withOutputs outputs hx),
    driversOf_of_frame (frame_withOutputs c outputs)]
  refine congrArg (fun bits => some (Component.evaluate _ bits)) ?_
  refine List.map_congr_left fun d hd => ?_
  cases d with
  | none => rfl
  | some a =>
      have hnext := mem_next_of_mem_driversOf hd
      have hbefore : Precedes c.evaluationOrder.closed a id :=
        h.precedes_of_acyclicCone hcone hnext
      obtain ⟨y, hy⟩ := mem_ids_iff.1 (h.mem_ids_of_mem_next hnext)
      have hdone := denote_evaluateAll h outputs (hcone.driver hnext) hy
      have hformed : ({ y with output := outputs a } : Component).WellFormed :=
        ⟨(h.formed hy).slots, (h.formed hy).bits⟩
      have hlength := h.length_denotedInputs hy
      show (if _ then _ else _) = c.denote a
      rw [if_pos hbefore, outputOf, Option.bind_some, hdone, denote_eq (hcone.driver hnext) hy]
      exact hformed.output_evaluate hlength
termination_by c.evaluationOrder.closed.idxOf id
decreasing_by exact hbefore

end Circuit

/-- The order that a simulator keeps belongs to a circuit: if it keeps one for this revision, then
it is the order of evaluation of the circuit. -/
def Simulator.BelongsTo (s : Simulator) (c : Circuit) : Prop :=
  s.revision = some c.revision → s.order = c.evaluationOrder

theorem Simulator.belongsTo_new (c : Circuit) : Simulator.new.BelongsTo c := fun h => nomatch h

/-- A simulator that belongs to a circuit makes its passes in the order of evaluation. -/
theorem Simulator.BelongsTo.order_refresh {s : Simulator} {c d : Circuit} (h : s.BelongsTo c)
    (hframe : d.frame = c.frame) : (s.refresh d).order = c.evaluationOrder := by
  have hrevision : d.revision = c.revision := congrArg Circuit.Frame.revision hframe
  unfold Simulator.refresh
  split
  · rename_i hsame
    exact h (hrevision ▸ hsame)
  · exact Circuit.evaluationOrder_of_frame hframe

/-- A simulator that belongs to a circuit belongs to those of the same frame. -/
theorem Simulator.BelongsTo.of_frame {s : Simulator} {c d : Circuit} (h : s.BelongsTo c)
    (hframe : d.frame = c.frame) : s.BelongsTo d := by
  intro hrevision
  have hsame : d.revision = c.revision := congrArg Circuit.Frame.revision hframe
  rw [h (hsame ▸ hrevision), Circuit.evaluationOrder_of_frame hframe]

namespace Circuit

variable {c : Circuit} {id a : ComponentId} {x : Component}

/-- A circuit has its own outputs. -/
theorem withOutputs_self (c : Circuit) : c.withOutputs (fun id => c.outputOf (some id)) = c := by
  have hself : ∀ x ∈ c.components.entries,
      { x with output := c.outputOf (some x.id) } = x := fun x hx => by
    have hlook : c.component? x.id = some x := Roster.mem_entries_iff.1 hx
    simp only [outputOf, Option.bind_some, hlook]
  have hcomponents : (c.withOutputs fun id => c.outputOf (some id)).components = c.components :=
    Roster.ext ((List.map_congr_left hself).trans (List.map_id _))
  exact congrArg (fun r => { c with components := r }) hcomponents

/-- A pass of a simulator that belongs to a circuit evaluates each component once, on the new
outputs of the drivers that have their turn before it and on the old outputs of the others. -/
theorem WellWired.component?_evaluate (h : c.WellWired) {s : Simulator} (hs : s.BelongsTo c)
    (hx : c.component? id = some x) :
    (s.evaluate c).2.2.component? id = some (x.evaluate ((c.driversOf id).map
      (c.readDuring (s.evaluate c).2.2 c.evaluationOrder.closed id))) := by
  have hperm := h.perm_closed_evaluationOrder
  have hid : id ∈ c.evaluationOrder.closed := hperm.mem_iff.2 (mem_ids_of_component? hx)
  have hpass : (s.evaluate c).2.2 = (c.evaluateAll c.evaluationOrder.closed).2 := by
    rw [← hs.order_refresh rfl]
    rfl
  rw [hpass]
  exact component?_evaluateAll (hperm.nodup_iff.2 c.nodup_ids) hid hx

/-- Where no cycle leads into a component, a pass puts out its value. -/
theorem WellWired.outputOf_evaluate (h : c.WellWired) {s : Simulator} (hs : s.BelongsTo c)
    (hx : c.component? id = some x) (hcone : c.AcyclicCone id) :
    (s.evaluate c).2.2.outputOf (some id) = c.denote id := by
  have hpass := h.denote_evaluateAll (fun id => c.outputOf (some id)) hcone hx
  rw [withOutputs_self, ← hs.order_refresh rfl] at hpass
  have hlook : (s.evaluate c).2.2.component? id = _ := hpass
  have hformed : ({ x with output := c.outputOf (some id) } : Component).WellFormed :=
    ⟨(h.formed hx).slots, (h.formed hx).bits⟩
  have hlength := h.length_denotedInputs hx
  rw [outputOf, Option.bind_some, hlook, denote_eq hcone hx]
  exact hformed.output_evaluate hlength

/-- A sink receives the value of what drives its first slot, if no cycle leads into that; the
other slots do not matter. -/
theorem WellWired.exists_received (h : c.WellWired) {s : Simulator} (hs : s.BelongsTo c)
    (hx : c.component? id = some x) (hfirst : (c.driversOf id).head? = some (some a))
    (hcone : c.AcyclicCone a) : ∃ bits, bits.length = x.kind.arity ∧
      bits.head? = some (c.denote a) ∧
      (s.evaluate c).2.2.component? id = some (x.evaluate bits) := by
  have hnext : a ∈ c.driverGraph.next id := mem_next_of_mem_driversOf (List.mem_of_head? hfirst)
  have hbefore := h.precedes_of_not_cycle (hcone a (.refl _ a)) hnext
  obtain ⟨y, hy, _⟩ := h.component?_driver hnext
  refine ⟨_, ?_, ?_, h.component?_evaluate hs hx⟩
  · rw [List.length_map, h.length_driversOf hx]
  · rw [List.head?_map, hfirst, Option.map_some, readDuring, if_pos hbefore,
      h.outputOf_evaluate hs hy hcone]

end Circuit

/-- One pass computes the denotation. In a reachable circuit with any outputs, a simulator that
belongs to it gives each component into which no cycle leads the value by recursion on its
drivers: a source its level, a gate its function of what drives it, and a sink the bits that drive
it, the value that they stand for, and as output whether it is set. -/
theorem evaluate_denotes {c : Circuit} (h : c.Reachable) {s : Simulator} (hs : s.BelongsTo c)
    (outputs : ComponentId → Bool) {id : ComponentId} {x : Component}
    (hx : c.component? id = some x) (hcone : c.AcyclicCone id) :
    ∃ y, (s.evaluate (c.withOutputs outputs)).2.2.component? id = some y ∧
      y.output = c.denote id ∧ y.Answers x.kind (c.denotedInputs id) := by
  have hwired := h.wellWired
  have hlength := hwired.length_denotedInputs hx
  set before : Component := { x with output := outputs id } with hbefore
  have hformed : before.WellFormed := ⟨(hwired.formed hx).slots, (hwired.formed hx).bits⟩
  have hpass : (s.evaluate (c.withOutputs outputs)).2.2.component? id =
      some (before.evaluate (c.denotedInputs id)) := by
    have horder := hs.order_refresh (c.frame_withOutputs outputs)
    show ((c.withOutputs outputs).evaluateAll
      (s.refresh (c.withOutputs outputs)).order.closed).2.component? id = _
    rw [horder]
    exact hwired.denote_evaluateAll outputs hcone hx
  refine ⟨_, hpass, ?_, hformed.answers_evaluate hlength⟩
  rw [Circuit.denote_eq hcone hx]
  exact hformed.output_evaluate hlength

/-- A pass over the latch, whose loop is elsewhere, shows the number five on its display. -/
theorem evaluate_denotes_latch : latch.Reachable ∧ latch.AcyclicCone "digit" ∧
    ∃ y, (Simulator.new.evaluate (latch.withOutputs fun _ => false)).2.2.component? "digit" =
      some y ∧ y.value = .number 5 ∧ y.output = true := by
  have hreach : latch.Reachable := reachable_applyAll _
  obtain ⟨s, hs, hskind⟩ := Option.map_eq_some_iff.1
    (by decide +kernel : (latch.component? "set").map (·.kind) = some (.source ⟨.switch, true⟩))
  obtain ⟨g, hg, hgkind⟩ := Option.map_eq_some_iff.1
    (by decide +kernel : (latch.component? "both").map (·.kind) = some (.gate .and))
  obtain ⟨x, hx, hxkind⟩ := Option.map_eq_some_iff.1
    (by decide +kernel :
      (latch.component? "digit").map (·.kind) = some (.sink (.ofKind .display)))
  have hset : latch.AcyclicCone "set" := .of_drivers fun a ha => by
    have hnone : latch.driverGraph.next "set" = [] := by decide +kernel
    simp [hnone] at ha
  have hboth : latch.AcyclicCone "both" := .of_drivers fun a ha => by
    have hdrivers : latch.driverGraph.next "both" = ["set", "set"] := by decide +kernel
    obtain rfl : a = "set" := by simpa [hdrivers] using ha
    exact hset
  have hdigit : latch.AcyclicCone "digit" := .of_drivers fun a ha => by
    have hdrivers : latch.driverGraph.next "digit" = ["both", "set"] := by decide +kernel
    obtain rfl | rfl : a = "both" ∨ a = "set" := by simpa [hdrivers] using ha
    · exact hboth
    · exact hset
  have hsetOn : latch.denote "set" = true := by
    rw [Circuit.denote_eq hset hs, hskind]
    rfl
  have hbothOn : latch.denote "both" = true := by
    have hdrivers : latch.driversOf "both" = [some "set", some "set"] := by decide +kernel
    rw [Circuit.denote_eq hboth hg, hgkind, Circuit.denotedInputs, hdrivers]
    simp [hsetOn, Kind.respond, Gate.eval, Gate.apply]
  have hbits : latch.denotedInputs "digit" = [true, false, true, false] := by
    have hdrivers : latch.driversOf "digit" = [some "both", none, some "set", none] := by
      decide +kernel
    simp [Circuit.denotedInputs, hdrivers, hsetOn, hbothOn]
  obtain ⟨y, hy, _, hanswers⟩ :=
    evaluate_denotes hreach (Simulator.belongsTo_new latch) (fun _ => false) hx hdigit
  rw [hxkind, hbits] at hanswers
  obtain ⟨_, _, _, hvalue, hout⟩ := hanswers
  have hfive : y.value = .number 5 := hvalue
  exact ⟨hreach, hdigit, y, hy, hfive, hout.trans (by rw [hfive]; rfl)⟩

end LogicCircuit
