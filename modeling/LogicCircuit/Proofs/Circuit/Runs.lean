import LogicCircuit.Proofs.Circuit.Frame

/-!
# Runs of edits

An `Edit` is one operation of the library on a circuit, with its arguments; what an operation
refuses leaves the circuit as it is. `Run` says which circuits a sequence of edits leads to. There
are many edits and few ways to change a circuit: `Edit.change` sorts the one into the other, and
whatever each `Change` keeps holds after every run (`Run.keeps`).
-/

namespace LogicCircuit

/-- One operation on a circuit. A simulator is in any state: it may come from another circuit. -/
inductive Edit where
  /-- Adds a component, in place of the one of its name. -/
  | add (x : Component) (formed : x.WellFormed)
  /-- Adds what was read from the circuit, under another name and with its slots as they are. -/
  | copy (id new : ComponentId)
  /-- Removes a component and the wires at it. -/
  | remove (id : ComponentId)
  /-- Connects two ports. -/
  | connectPorts (source : ComponentId) (sourcePort : Port) (target : ComponentId)
      (targetPort : Port)
  /-- Connects an output to a slot. -/
  | connect (source target : ComponentId) (slot : Nat)
  /-- Connects an output to a slot, even if that closes a cycle. -/
  | force (source target : ComponentId) (slot : Nat)
  /-- Removes a wire. -/
  | disconnect (wire : WireId)
  /-- Removes everything. -/
  | clear
  /-- Overwrites the level of a source. -/
  | setLevel (id : ComponentId) (level : Bool)
  /-- Sets a switch. -/
  | setSwitch (id : ComponentId) (level : Bool)
  /-- Presses or releases a button. -/
  | press (id : ComponentId) (pressed : Bool)
  /-- Flips a switch, or stops or starts a clock. -/
  | toggle (id : ComponentId)
  /-- Changes the frequency of a clock. -/
  | setFrequency (id : ComponentId) (hz : Float)
  /-- Changes a label. -/
  | setLabel (id : ComponentId) (label : Option String)
  /-- Moves a component. -/
  | move (id : ComponentId) (dx dy : Float)
  /-- Makes one pass. -/
  | evaluate (s : Simulator)
  /-- Goes on to a time. -/
  | tick (s : Simulator) (now : Float)
  /-- Goes on by the time of one step. -/
  | step (s : Simulator)
  /-- Goes back to the initial state. -/
  | reset (s : Simulator)
  /-- Runs through the rows of the truth table. -/
  | tabulate

namespace Edit

/-- The circuit after an attempt to connect. -/
def settled (c : Circuit) : Except WiringError (WireId × Circuit) → Circuit
  | .ok (_, d) => d
  | .error _ => c

/-- The circuit after an edit. -/
def apply : Edit → Circuit → Circuit
  | add x _, c => (c.add x).2
  | copy id new, c => ((c.component? id).map fun x => (c.add (x.withId new)).2).getD c
  | remove id, c => c.remove id
  | connectPorts source sourcePort target targetPort, c =>
    settled c (c.connectPorts source sourcePort target targetPort)
  | connect source target slot, c => settled c (c.connect source target slot)
  | force source target slot, c => settled c (c.force source target slot)
  | disconnect wire, c => c.disconnect wire
  | clear, c => c.clear
  | setLevel id level, c => (c.setLevel? id level).getD c
  | setSwitch id level, c => (c.setSwitch? id level).getD c
  | press id pressed, c => (c.press? id pressed).getD c
  | toggle id, c => (c.toggle? id).getD c
  | setFrequency id hz, c => (c.setFrequency? id hz).getD c
  | setLabel id label, c => (c.setLabel? id label).getD c
  | move id dx dy, c => (c.move? id dx dy).getD c
  | evaluate s, c => (s.evaluate c).2.2
  | tick s now, c => (s.tick c now).2.2
  | step s, c => (s.step c).2.2
  | reset s, c => (s.reset c).2
  | tabulate, c => c.tabulate.2

/-- The circuit after several edits. -/
def applyAll (edits : List Edit) (c : Circuit) : Circuit := edits.foldl (fun c e => e.apply c) c

/-- Whether the edit may close a cycle of wires. -/
def mayLoop : Edit → Bool
  | force _ _ _ => true
  | _ => false

/-- The edit does not force a wire. -/
def Unforced (e : Edit) : Prop := e.mayLoop = false

end Edit

/-- The ways in which an edit can change a circuit. -/
inductive Change (loopsAllowed : Bool) (c : Circuit) : Circuit → Prop where
  | state {d : Circuit} : d.frame = c.frame → Change loopsAllowed c d
  | add {x : Component} : x.WellFormed → Change loopsAllowed c (c.add x).2
  | remove (id : ComponentId) : Change loopsAllowed c (c.remove id)
  | disconnect (k : WireId) : Change loopsAllowed c (c.disconnect k)
  | clear : Change loopsAllowed c c.clear
  | wireUp {source target : ComponentId} {slot : Nat} {k : WireId} {d : Circuit} :
      c.wireUp loopsAllowed source target slot = .ok (k, d) → Change loopsAllowed c d

namespace Change

variable {loopsAllowed : Bool} {c : Circuit}

/-- An operation that does not apply changes nothing. -/
theorem of_getD {d? : Option Circuit} (h : ∀ d, d? = some d → Change loopsAllowed c d) :
    Change loopsAllowed c (d?.getD c) := by
  cases hd : d? with
  | none => exact .state rfl
  | some d => exact h d hd

/-- A setting changes the state alone, also where it does not apply. -/
theorem of_setting {d? : Option Circuit} (h : ∀ d, d? = some d → d.frame = c.frame) :
    Change loopsAllowed c (d?.getD c) :=
  of_getD fun d hd => .state (h d hd)

/-- A connection attaches a wire or changes nothing. -/
theorem of_wireUp (source target : ComponentId) (slot : Nat) :
    Change loopsAllowed c (Edit.settled c (c.wireUp loopsAllowed source target slot)) := by
  cases hd : c.wireUp loopsAllowed source target slot with
  | error _ => exact .state rfl
  | ok d => exact .wireUp hd

/-- A circuit stays well wired, however it changes. -/
theorem wellWired {d : Circuit} (h : Change loopsAllowed c d) (hc : c.WellWired) :
    d.WellWired := by
  cases h with
  | state hframe => exact hc.of_frame hframe
  | add hx => exact hc.add hx
  | remove id => exact hc.remove id
  | disconnect k => exact hc.disconnect k
  | clear => exact .clear c
  | wireUp hd => exact hc.wireUp hd

end Change

/-- Every edit is one of the changes; only a forced wire may close a cycle. -/
theorem Edit.change {c : Circuit} (h : c.WellWired) (e : Edit) :
    Change e.mayLoop c (e.apply c) := by
  cases e with
  | add x formed => exact .add formed
  | copy id new =>
      refine .of_getD fun d hd => ?_
      obtain ⟨x, hx, rfl⟩ := Option.map_eq_some_iff.1 hd
      exact .add ((h.formed hx).withId new)
  | remove id => exact .remove id
  | connectPorts source sourcePort target targetPort =>
      show Change false c (settled c (c.connectPorts source sourcePort target targetPort))
      unfold Circuit.connectPorts
      split
      · exact .of_wireUp source target targetPort.index
      · exact .state rfl
  | connect source target slot => exact .of_wireUp source target slot
  | force source target slot => exact .of_wireUp source target slot
  | disconnect wire => exact .disconnect wire
  | clear => exact .clear
  | setLevel id level => exact .of_setting fun d => Circuit.frame_setLevel
  | setSwitch id level => exact .of_setting fun d => Circuit.frame_modifySource (by simp)
  | press id pressed => exact .of_setting fun d => Circuit.frame_modifySource (by simp)
  | toggle id => exact .of_setting fun d => Circuit.frame_modifySource (by simp)
  | setFrequency id hz => exact .of_setting fun d => Circuit.frame_modifySource (by simp)
  | setLabel id label => exact .of_setting fun d => Circuit.frame_setLabel
  | move id dx dy => exact .of_setting fun d => Circuit.frame_move
  | evaluate s => exact .state (Circuit.frame_evaluate s c)
  | tick s now => exact .state (Circuit.frame_tick s c now)
  | step s => exact .state (Circuit.frame_tick s c _)
  | reset s => exact .state (Circuit.frame_reset c s.lastTime)
  | tabulate => exact .state (Circuit.frame_tabulate c)

/-- Allowed edits lead from one circuit to another. -/
inductive Run (allowed : Edit → Prop) (c : Circuit) : Circuit → Prop where
  | refl : Run allowed c c
  | edit {d : Circuit} (e : Edit) : Run allowed c d → allowed e → Run allowed c (e.apply d)

namespace Run

variable {allowed allowed' : Edit → Prop} {c d e : Circuit}

theorem single (x : Edit) (hx : allowed x) : Run allowed c (x.apply c) := .edit x .refl hx

theorem trans (h : Run allowed c d) (h' : Run allowed d e) : Run allowed c e := by
  induction h' with
  | refl => exact h
  | edit x _ hx ih => exact .edit x ih hx

theorem mono (hle : ∀ x, allowed x → allowed' x) (h : Run allowed c d) : Run allowed' c d := by
  induction h with
  | refl => exact .refl
  | edit x _ hx ih => exact .edit x ih (hle x hx)

/-- Runs for the elements of a list, one after another, are a run. -/
theorem foldl {α : Type} {f : Circuit → α → Circuit} (h : ∀ c a, Run allowed c (f c a))
    (xs : List α) (c : Circuit) : Run allowed c (xs.foldl f c) := by
  induction xs generalizing c with
  | nil => exact .refl
  | cons a xs ih => exact (h c a).trans (ih (f c a))

/-- A list of allowed edits, applied in turn, is a run. -/
theorem applyAll {edits : List Edit} (h : ∀ x ∈ edits, allowed x) (c : Circuit) :
    Run allowed c (Edit.applyAll edits c) := by
  induction edits generalizing c with
  | nil => exact .refl
  | cons x edits ih =>
      have hx := h x List.mem_cons_self
      exact (single x hx).trans (ih (fun y hy => h y (List.mem_cons_of_mem _ hy)) (x.apply c))

/-- What every allowed change of a well-wired circuit keeps, a whole run keeps. -/
theorem keeps {P : Circuit → Prop}
    (hstep : ∀ x c d, allowed x → c.WellWired → Change x.mayLoop c d → P c → P d)
    (h : Run allowed c d) (hc : c.WellWired) (hP : P c) : d.WellWired ∧ P d := by
  induction h with
  | refl => exact ⟨hc, hP⟩
  | edit x _ hx ih =>
      have hchange := x.change ih.1
      exact ⟨hchange.wellWired ih.1, hstep x _ _ hx ih.1 hchange ih.2⟩

/-- Runs lead from well-wired circuits to well-wired circuits. -/
theorem wellWired (h : Run allowed c d) (hc : c.WellWired) : d.WellWired :=
  (h.keeps (P := fun _ => True) (fun _ _ _ _ _ _ _ => trivial) hc trivial).1

end Run

end LogicCircuit
