import LogicCircuit.Proofs.Circuit.Frame
import LogicCircuit.Proofs.Graph.DepthFirst

/-!
# One pass

A pass evaluates components in place and in turn, so what a component reads on a slot depends on
whether its driver had its turn before. `component?_evaluateAll` says what is left in the end in
one equation: on each slot the component read the new output of a driver that precedes it and the
old output of any other.
-/

namespace LogicCircuit.Circuit

variable {c : Circuit} {id a : ComponentId} {x : Component} {order : List ComponentId}

/-- Evaluating a component changes no other. -/
theorem component?_evaluateOne_of_ne (c : Circuit) (h : a ≠ id) :
    (c.evaluateOne id).component? a = c.component? a :=
  (component?_modify c id _ _ a).trans (if_neg h)

/-- Evaluating a component applies its function to the bits on its slots. -/
theorem component?_evaluateOne_self (hx : c.component? id = some x) :
    (c.evaluateOne id).component? id = some (x.evaluate (c.inputValues id)) := by
  refine (component?_modify c id _ _ id).trans ((if_pos rfl).trans ?_)
  rw [hx, Option.map_some]

/-- A component that gets no turn stays as it was. -/
theorem component?_foldl_of_not_mem (c : Circuit) (h : a ∉ order) :
    (order.foldl evaluateOne c).component? a = c.component? a := by
  induction order generalizing c with
  | nil => rfl
  | cons id order ih =>
      obtain ⟨hne, hrest⟩ := not_or.1 (mt List.mem_cons.2 h)
      exact (ih (c.evaluateOne id) hrest).trans (component?_evaluateOne_of_ne c hne)

theorem frame_foldl_evaluateOne (order : List ComponentId) (c : Circuit) :
    (order.foldl evaluateOne c).frame = c.frame := by
  rw [← evaluateAll_snd]
  exact frame_evaluateAll order c

theorem outputOf_foldl_of_not_mem (c : Circuit) (h : a ∉ order) :
    (order.foldl evaluateOne c).outputOf (some a) = c.outputOf (some a) := by
  simp only [outputOf, Option.bind_some, component?_foldl_of_not_mem c h]

/-- The names before the first occurrence of a name in a list are those in front of it. -/
theorem precedes_append_cons {before after : List ComponentId} (h : id ∉ before)
    (a : ComponentId) :
    Precedes (before ++ id :: after) a id ↔ a ∈ before := by
  rw [List.append_cons before id after, precedes_append (by simp), precedes_append_singleton h]

/-- The output that a component reads on a slot during a pass from `c` to `d`. -/
def readDuring (c d : Circuit) (order : List ComponentId) (id : ComponentId) :
    Option ComponentId → Bool
  | none => false
  | some a => if Precedes order a id then d.outputOf (some a) else c.outputOf (some a)

/-- What a pass leaves behind: each component evaluated once, on the new outputs of the drivers
that precede it and the old outputs of the others. -/
theorem component?_evaluateAll (horder : order.Nodup) (hid : id ∈ order)
    (hx : c.component? id = some x) :
    (c.evaluateAll order).2.component? id =
      some (x.evaluate
        ((c.driversOf id).map (c.readDuring (c.evaluateAll order).2 order id))) := by
  rw [evaluateAll_snd]
  obtain ⟨before, after, rfl⟩ := List.append_of_mem hid
  obtain ⟨hbefore, hrest, hdisjoint⟩ := List.nodup_append.1 horder
  have hfirst : id ∉ before := fun h => hdisjoint id h id List.mem_cons_self rfl
  have hlast : id ∉ after := (List.nodup_cons.1 hrest).1
  -- the turn of the component comes in the state that the ones before it left
  set m := before.foldl evaluateOne c with hm
  have hfinal : (before ++ id :: after).foldl evaluateOne c =
      after.foldl evaluateOne (m.evaluateOne id) := by
    rw [List.foldl_append, List.foldl_cons, hm]
  have hxm : m.component? id = some x := (component?_foldl_of_not_mem c hfirst).trans hx
  have hreads : m.inputValues id = (c.driversOf id).map
      (c.readDuring ((before ++ id :: after).foldl evaluateOne c)
        (before ++ id :: after) id) := by
    unfold inputValues
    rw [driversOf_of_frame (frame_foldl_evaluateOne before c)]
    refine List.map_congr_left fun driver _ => ?_
    cases driver with
    | none => rfl
    | some a =>
        show m.outputOf (some a) = if _ then _ else _
        by_cases ha : a ∈ before
        · have hlater : a ∉ id :: after := fun h => hdisjoint a ha a h rfl
          rw [if_pos ((precedes_append_cons hfirst a).2 ha), List.foldl_append]
          exact (outputOf_foldl_of_not_mem m hlater).symm
        · rw [if_neg (mt (precedes_append_cons hfirst a).1 ha)]
          exact outputOf_foldl_of_not_mem c ha
  rw [hfinal, component?_foldl_of_not_mem _ hlast, component?_evaluateOne_self hxm, hreads,
    hfinal]

end LogicCircuit.Circuit
