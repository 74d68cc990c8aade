import LogicCircuit.Netlist.Basic
import Mathlib.Data.List.Nodup

/-!
# What drives a signal

The search for what drives a signal takes one step at a time: an input, a gate and a constant end
it, and a buffer leads on (`resolveWithin_buffer`). A name that nothing drives stands for a
constant or for nothing. What is found is always declared: `offers_of_resolve`.
-/

namespace LogicCircuit

namespace Netlist

/-- A signal is a gate. -/
def IsGate (s : Signal) : Prop := ∃ g, s.operation = .gate g

/-- The names of all signals that are driven. -/
def driven (n : Netlist) : List String := n.inputs ++ n.signals.map (·.name)

variable {n : Netlist} {s : Signal} {name asked : String} {steps : Nat} {driver : Driver}

/-- A driver is declared: an input or the gate of a signal. -/
def Offers (n : Netlist) : Driver → Prop
  | .input name => name ∈ n.inputs
  | .gate name => ∃ s ∈ n.signals, s.name = name ∧ IsGate s
  | .constant _ => True

/-- A signal that is found is one of the netlist. -/
theorem mem_of_signal? (h : n.signal? name = some s) : s ∈ n.signals ∧ s.name = name :=
  ⟨List.mem_of_find?_eq_some h, by simpa using List.find?_some h⟩

/-- What really drives a signal is declared. -/
theorem offers_of_resolveWithin (h : n.resolveWithin asked steps name = .ok driver) :
    n.Offers driver := by
  induction steps generalizing name with
  | zero => cases h
  | succ steps ih =>
      unfold resolveWithin at h
      split at h
      case isTrue hinput =>
        obtain rfl := Except.ok.inj h
        exact hinput
      case isFalse =>
        split at h
        case h_1 g args hs =>
          obtain rfl := Except.ok.inj h
          obtain ⟨hmem, hname⟩ := mem_of_signal? hs
          exact ⟨_, hmem, hname, g, rfl⟩
        case h_2 =>
          obtain rfl := Except.ok.inj h
          trivial
        case h_3 => exact ih h
        case h_4 =>
          split at h
          · obtain rfl := Except.ok.inj h
            trivial
          · cases h

theorem offers_of_resolve (h : n.resolve name = .ok driver) : n.Offers driver :=
  offers_of_resolveWithin h

/-! ## One step of the search -/

/-- A name belongs to one signal. -/
theorem signal_unique (hn : n.driven.Nodup) {t : Signal} (hs : s ∈ n.signals) (ht : t ∈ n.signals)
    (hname : t.name = s.name) : t = s :=
  List.inj_on_of_nodup_map (List.nodup_append.1 hn).2.1 ht hs hname

/-- A signal is found under its name. -/
theorem signal?_of_mem (hn : n.driven.Nodup) (hs : s ∈ n.signals) :
    n.signal? s.name = some s := by
  have hsome : (n.signal? s.name).isSome := List.find?_isSome.2 ⟨s, hs, beq_self_eq_true _⟩
  obtain ⟨t, ht⟩ := Option.isSome_iff_exists.1 hsome
  obtain ⟨hmem, hname⟩ := mem_of_signal? ht
  rw [ht, signal_unique hn hs hmem hname]

/-- A signal is no input. -/
theorem not_mem_inputs (hn : n.driven.Nodup) (hs : s ∈ n.signals) : s.name ∉ n.inputs := fun h =>
  (List.nodup_append.1 hn).2.2 _ h _ (List.mem_map_of_mem hs) rfl

theorem resolveWithin_input (h : name ∈ n.inputs) (asked : String) (steps : Nat) :
    n.resolveWithin asked (steps + 1) name = .ok (.input name) := by
  rw [resolveWithin, if_pos h]

theorem resolveWithin_gate (hn : n.driven.Nodup) (hs : s ∈ n.signals) (hgate : IsGate s)
    (asked : String) (steps : Nat) :
    n.resolveWithin asked (steps + 1) s.name = .ok (.gate s.name) := by
  obtain ⟨g, hg⟩ := hgate
  rw [resolveWithin, if_neg (not_mem_inputs hn hs), signal?_of_mem hn hs]
  obtain ⟨_, operation, _⟩ := s
  obtain rfl : operation = .gate g := hg
  rfl

theorem resolveWithin_constant (hn : n.driven.Nodup) (hs : s ∈ n.signals) {on : Bool}
    (hop : s.operation = .constant on) (asked : String) (steps : Nat) :
    n.resolveWithin asked (steps + 1) s.name = .ok (.constant on) := by
  rw [resolveWithin, if_neg (not_mem_inputs hn hs), signal?_of_mem hn hs]
  obtain ⟨_, operation, _⟩ := s
  obtain rfl : operation = .constant on := hop
  rfl

/-- A buffer is driven by what drives its argument. -/
theorem resolveWithin_buffer (hn : n.driven.Nodup) (hs : s ∈ n.signals)
    (hop : s.operation = .buffer) {arg : String} (hargs : s.args = [arg]) (asked : String)
    (steps : Nat) :
    n.resolveWithin asked (steps + 1) s.name = n.resolveWithin asked steps arg := by
  rw [resolveWithin, if_neg (not_mem_inputs hn hs), signal?_of_mem hn hs]
  obtain ⟨_, operation, args⟩ := s
  obtain rfl : operation = .buffer := hop
  obtain rfl : args = [arg] := hargs
  rfl

/-- What nothing drives is no signal. -/
theorem signal?_eq_none (h : name ∉ n.driven) : n.signal? name = none := by
  refine List.find?_eq_none.2 fun s hs hname => h ?_
  exact List.mem_append_right _ (List.mem_map.2 ⟨s, hs, by simpa using hname⟩)

/-- A name that nothing drives may stand for a constant. -/
theorem resolveWithin_default (h : name ∉ n.driven) {on : Bool}
    (hdefault : defaultConstant? name = some on) (asked : String) (steps : Nat) :
    n.resolveWithin asked (steps + 1) name = .ok (.constant on) := by
  rw [resolveWithin, if_neg fun hinput => h (List.mem_append_left _ hinput), signal?_eq_none h,
    hdefault]

/-- A name that nothing drives and that stands for no constant ends the search. -/
theorem resolveWithin_undefined (h : name ∉ n.driven) (hdefault : defaultConstant? name = none)
    (asked : String) (steps : Nat) :
    n.resolveWithin asked (steps + 1) name = .error (.undefined name) := by
  rw [resolveWithin, if_neg fun hinput => h (List.mem_append_left _ hinput), signal?_eq_none h,
    hdefault]

end Netlist

end LogicCircuit
