import LogicCircuit.Proofs.Circuit.Invariants
import LogicCircuit.Proofs.Simulation.Outline

/-!
# What a pass reports

A pass returns the components that it changed. Whether an evaluation changed a component is told
from two fields, the output and the bits of a sink. They say the same as the value alone because
the output is always the value as one bit (`Component.Agrees`), which new components have and
every operation keeps. So the report of a pass is exact: `change_report_exact`.
-/

namespace LogicCircuit

theorem bitsToNat_off (n : Nat) : bitsToNat (List.replicate n false) = 0 := by
  induction n with
  | zero => rfl
  | succ n ih => simp [List.replicate_succ, bitsToNat, ih]

/-- A sink shows nothing while all its bits are off. -/
theorem Sink.isSet_value_off {s : Sink} {n : Nat} (h : s.bits = List.replicate n false) :
    s.value.isSet = false := by
  unfold value
  rw [h]
  split
  · simp [Value.isSet, bitsToNat_off]
  · cases n <;> rfl

namespace Component

variable {x : Component}

/-- The output is what the component shows, as one bit. -/
def Agrees (x : Component) : Prop := x.output = x.value.isSet

/-- The output of a component that is no sink is its value. -/
theorem agrees_of_not_sink (h : x.kind.sink? = none) : x.Agrees := by
  unfold Agrees value
  cases hk : x.kind with
  | gate g => rfl
  | source s => rfl
  | sink s => rw [hk] at h; cases h

theorem agrees_sink_iff {s : Sink} (h : x.kind = .sink s) :
    x.Agrees ↔ x.output = s.value.isSet := by
  rw [Agrees, value, h]

/-- An evaluation puts out what it shows. -/
theorem agrees_evaluate (x : Component) (bits : List Bool) : (x.evaluate bits).Agrees := by
  unfold evaluate
  cases hk : x.kind with
  | gate g => exact agrees_of_not_sink (by simp [Kind.sink?])
  | source s => exact agrees_of_not_sink (by simp [Kind.sink?])
  | sink s => exact (agrees_sink_iff rfl).2 rfl

/-- New components show their output, and every operation keeps it so. -/
theorem invariant_agrees : Component.Invariant Agrees where
  new {x} h := by
    cases hk : x.kind with
    | gate g => exact agrees_of_not_sink (by rw [hk]; rfl)
    | source s => exact agrees_of_not_sink (by rw [hk]; rfl)
    | sink s =>
        have hout : x.output = false := by rw [h.output, hk]; rfl
        rw [agrees_sink_iff hk, hout, Sink.isSet_value_off (h.bits s hk)]
  congr {x y} h hkind hout _ := by
    have hvalue : y.value = x.value := by rw [value, value, hkind, hout]
    rw [Agrees, hout, hvalue]
    exact h
  source {x} change h := by
    cases hk : x.kind with
    | gate g => exact agrees_of_not_sink rfl
    | source s => exact agrees_of_not_sink rfl
    | sink s => exact (agrees_sink_iff rfl).2 ((agrees_sink_iff hk).1 h)
  evaluate {x} bits _ := x.agrees_evaluate bits
  reset {x} now _ := by
    unfold reset
    cases hk : x.kind with
    | gate g => exact agrees_of_not_sink (by simp [Kind.sink?])
    | source s => exact agrees_of_not_sink rfl
    | sink s =>
        have hbits : s.reset.bits = List.replicate s.bits.length false := by
          rw [Sink.reset_eq_blank, Sink.blank]
        exact (agrees_sink_iff rfl).2 (Sink.isSet_value_off hbits).symm

/-- An evaluation flags a component exactly if it changes what the component shows. -/
theorem Agrees.changed_evaluate_iff (h : x.Agrees) (bits : List Bool) :
    (x.evaluate bits).changed = true ↔ (x.evaluate bits).value ≠ x.value := by
  unfold evaluate
  cases hk : x.kind with
  | gate g => simp [value, hk]
  | source s => simp [value, hk]
  | sink s =>
      have hout := (agrees_sink_iff hk).1 h
      simp only [value, hk, Bool.or_eq_true, bne_iff_ne, hout]
      constructor
      · rintro (hvalue | hbit)
        · exact hvalue.symm
        · exact fun e => hbit (by rw [e])
      · exact fun hvalue => .inl hvalue.symm

end Component

namespace Circuit

variable {c : Circuit} {id : ComponentId} {order : List ComponentId}

/-- A pass over distinct components lists those that are flagged in the end. -/
theorem evaluateAll_fst (h : order.Nodup) (c : Circuit) :
    (c.evaluateAll order).1 =
      order.filter fun id => ((c.evaluateAll order).2.component? id).any (·.changed) := by
  induction order generalizing c with
  | nil => rfl
  | cons id order ih =>
      obtain ⟨hid, horder⟩ := List.nodup_cons.1 h
      -- no later turn touches the component
      have hkept : ((c.evaluateOne id).evaluateAll order).2.component? id =
          (c.evaluateOne id).component? id := by
        rw [evaluateAll_snd, component?_foldl_of_not_mem _ hid]
      rw [evaluateAll_cons, List.filter_cons, hkept, ih horder]

/-- What a pass flags, among the components of its order, are those that show something else. -/
theorem changed_evaluateAll_iff (horder : order.Nodup) (hid : id ∈ order)
    (hagrees : c.Every Component.Agrees) :
    ((c.evaluateAll order).2.component? id).any (·.changed) = true ↔
      ((c.evaluateAll order).2.component? id).map (·.value) ≠
        (c.component? id).map (·.value) := by
  cases hx : c.component? id with
  | none =>
      have hnone : (c.evaluateAll order).2.component? id = none :=
        component?_eq_none_of_frame (frame_evaluateAll order c) hx
      simp [hnone]
  | some x =>
      rw [component?_evaluateAll horder hid hx, Option.any_some,
        (hagrees.component hx).changed_evaluate_iff]
      simp

end Circuit

open Circuit

variable {c : Circuit}

/-- The report of a pass is exact. In every circuit that can be made and with every order that
belongs to it, a pass lists the components whose value it changed, the number for a display and
the bit for any other. They are listed once each and in the order of evaluation, and they are
those that are flagged as changed after the pass. -/
theorem change_report_exact (h : c.Built) {s : Simulator} (hs : s.BelongsTo c) :
    let changed := (s.evaluate c).1
    let after := (s.evaluate c).2.2
    changed.Nodup ∧ changed.Sublist c.evaluationOrder.closed ∧
    (∀ id, id ∈ changed ↔
      (after.component? id).map (·.value) ≠ (c.component? id).map (·.value)) ∧
    (∀ id, id ∈ changed ↔ ∃ x, after.component? id = some x ∧ x.changed = true) := by
  intro changed after
  obtain ⟨hchanged, hafter⟩ := hs.evaluate_eq
  have hperm := h.wellWired.perm_closed_evaluationOrder
  have hnodup : c.evaluationOrder.closed.Nodup := hperm.nodup_iff.2 c.nodup_ids
  have hreport : changed =
      c.evaluationOrder.closed.filter fun id => (after.component? id).any (·.changed) := by
    rw [show changed = _ from hchanged, show after = _ from hafter]
    exact evaluateAll_fst hnodup c
  -- every component has its turn, so a flag is never left over from an earlier pass
  have hturn : ∀ {id x}, after.component? id = some x → id ∈ c.evaluationOrder.closed := by
    intro id x hx
    obtain ⟨y, hy, -⟩ := component?_of_frame (frame_evaluate s c) hx
    exact hperm.mem_iff.2 (mem_ids_of_component? hy)
  have hflag : ∀ id, id ∈ changed ↔ ∃ x, after.component? id = some x ∧ x.changed = true := by
    intro id
    rw [hreport, List.mem_filter, Option.any_eq_true]
    exact ⟨fun hid => hid.2, fun ⟨x, hx⟩ => ⟨hturn hx.1, x, hx⟩⟩
  refine ⟨hreport ▸ hnodup.filter _, hreport ▸ List.filter_sublist, fun id => ?_, hflag⟩
  by_cases hid : id ∈ c.evaluationOrder.closed
  · have hvalue := changed_evaluateAll_iff hnodup hid (h.every Component.invariant_agrees)
    rw [← hafter] at hvalue
    rw [hreport, List.mem_filter]
    exact (and_iff_right hid).trans hvalue
  · have hgone : after.component? id = none :=
      Option.eq_none_iff_forall_ne_some.2 fun x hx => hid (hturn hx)
    have hwas : c.component? id = none :=
      component?_eq_none_of_frame (frame_evaluate s c).symm hgone
    simp [hreport, hid, hgone, hwas]

/-- A display on two switches that shows one and is about to show two: a copy of the switch that
was on, made while it was, drives the other slot. -/
def turningDisplay : Circuit :=
  Edit.applyAll
    [.add ((Component.source .switch .origin).withId "one") (by decide),
      .add ((Component.sink .display .origin).withId "face") (by decide),
      .connect "one" "face" 0, .setSwitch "one" true, .evaluate .new, .copy "one" "two",
      .setSwitch "one" false, .connect "two" "face" 1]
    .empty

theorem built_turningDisplay : turningDisplay.Built :=
  Built.empty.run (.applyAll (by simp [Edit.AddsNew]; decide) _)

/-- The display goes from one to two, which leaves its output as it was, and is reported after the
switch that was turned off; the switch that stays on is not. -/
theorem change_report_exact_turningDisplay : turningDisplay.Built ∧
    let changed := (Simulator.new.evaluate turningDisplay).1
    let after := (Simulator.new.evaluate turningDisplay).2.2
    changed = ["one", "face"] ∧ changed.Nodup ∧
      (turningDisplay.component? "face").map (fun x => (x.value, x.output)) =
        some (.number 1, true) ∧
      (after.component? "face").map (fun x => (x.value, x.output)) = some (.number 2, true) := by
  obtain ⟨hnodup, -⟩ :=
    change_report_exact built_turningDisplay (Simulator.belongsTo_new turningDisplay)
  exact ⟨built_turningDisplay, by decide +kernel, hnodup, by decide +kernel, by decide +kernel⟩

end LogicCircuit
