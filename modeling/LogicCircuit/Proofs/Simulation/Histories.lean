import LogicCircuit.Proofs.Circuit.Adding
import LogicCircuit.Proofs.Simulation.Clocks
import Mathlib.Data.List.DropRight

/-!
# What probes remember

What happens to components in a run is written down in a log: what is added and with which
history, what is evaluated and on which bit, and when everything is reset (`Edit.log`). The log
does not know of probes and forgets nothing. A probe remembers the end of what the log says that
it saw since it last started afresh: `Circuit.Recalls` is kept by every single happening and
therefore by every run, and the main result is `probes_remember_latest`.
-/

namespace LogicCircuit

/-- What happens to components. -/
inductive Happening where
  /-- A component is added, with the history that it brings along. -/
  | added (id : ComponentId) (history : List Bool)
  /-- A component is evaluated, with the bit that is on its first slot then. -/
  | evaluated (id : ComponentId) (bit : Bool)
  /-- All components go back to their initial state. -/
  | reset
  deriving DecidableEq, Repr

namespace Happening

/-- Whether a component starts afresh. -/
def starts (id : ComponentId) : Happening → Bool
  | added a _ => a == id
  | evaluated _ _ => false
  | reset => true

/-- The bit on which a component is evaluated. -/
def bit? (id : ComponentId) : Happening → Option Bool
  | evaluated a bit => if a = id then some bit else none
  | _ => none

/-- The bits on which a component was evaluated since it last started afresh, the oldest first. -/
def seen (id : ComponentId) (log : List Happening) : List Bool :=
  (log.rtakeWhile fun e => !e.starts id).filterMap (bit? id)

/-- The history that a component starts with. -/
def start : Happening → List Bool
  | added _ history => history
  | _ => []

/-- The history with which a component last started afresh: after a reset it is empty. -/
def carried (id : ComponentId) (log : List Happening) : List Bool :=
  ((log.filter (starts id)).getLast?.map start).getD []

/-- What a probe remembers: the latest bits, as soon as it saw any. -/
def recalled (id : ComponentId) (log : List Happening) : List Bool :=
  if seen id log = [] then carried id log
  else (carried id log ++ seen id log).rtake SinkKind.historyLimit

variable {id a : ComponentId} {log : List Happening} {e : Happening} {history : List Bool}
  {bit : Bool}

/-! ## One more happening -/

theorem seen_of_starts (h : e.starts id = true) : seen id (log ++ [e]) = [] := by
  rw [seen, List.rtakeWhile_concat_neg _ _ _ (by simp [h]), List.filterMap_nil]

theorem seen_of_goesOn (h : e.starts id = false) :
    seen id (log ++ [e]) = seen id log ++ (e.bit? id).toList := by
  rw [seen, List.rtakeWhile_concat_pos _ _ _ (by simp [h]), List.filterMap_append]
  cases hbit : e.bit? id <;> simp [seen, hbit]

theorem carried_of_starts (h : e.starts id = true) : carried id (log ++ [e]) = e.start := by
  rw [carried, List.filter_append, List.filter_singleton, h]
  simp

theorem carried_of_goesOn (h : e.starts id = false) :
    carried id (log ++ [e]) = carried id log := by
  rw [carried, List.filter_append, List.filter_singleton, h]
  simp [carried]

/-- A component that is added remembers what it brings along. -/
theorem recalled_added : recalled id (log ++ [added id history]) = history := by
  have hstarts : (added id history).starts id = true := beq_self_eq_true id
  rw [recalled, seen_of_starts hstarts, carried_of_starts hstarts, if_pos rfl]
  rfl

/-- Nothing is remembered from before a reset. -/
theorem recalled_reset : recalled id (log ++ [reset]) = [] := by
  have hstarts : reset.starts id = true := rfl
  rw [recalled, seen_of_starts hstarts, carried_of_starts hstarts, if_pos rfl]
  rfl

/-- What happens to other components is not remembered. -/
theorem recalled_of_other (hstarts : e.starts id = false) (hbit : e.bit? id = none) :
    recalled id (log ++ [e]) = recalled id log := by
  rw [recalled, seen_of_goesOn hstarts, carried_of_goesOn hstarts, hbit, Option.toList_none,
    List.append_nil, recalled]

theorem recalled_of_others {more : List Happening}
    (h : ∀ e ∈ more, e.starts id = false ∧ e.bit? id = none) :
    recalled id (log ++ more) = recalled id log := by
  induction more generalizing log with
  | nil => rw [List.append_nil]
  | cons e more ih =>
      obtain ⟨⟨hstarts, hbit⟩, hmore⟩ := List.forall_mem_cons.1 h
      rw [List.append_cons, ih hmore, recalled_of_other hstarts hbit]

/-- The latest entries are found among the latest entries before and the last one. -/
theorem rtake_rtake_concat (n : Nat) (bits : List Bool) (bit : Bool) :
    (bits.rtake n ++ [bit]).rtake n = (bits ++ [bit]).rtake n := by
  cases n with
  | zero => simp only [List.rtake_zero]
  | succ n =>
      rw [List.rtake_concat_succ, List.rtake_concat_succ]
      simp only [List.rtake_eq_reverse_take_reverse, List.reverse_reverse, List.take_take]
      rw [Nat.min_eq_left (Nat.le_succ n)]

/-- A bit that is seen is remembered, and the oldest ones make room for it. -/
theorem recalled_evaluated : recalled id (log ++ [evaluated id bit]) =
    (recalled id log ++ [bit]).rtake SinkKind.historyLimit := by
  have hstarts : (evaluated id bit).starts id = false := rfl
  have hbit : (evaluated id bit).bit? id = some bit := if_pos rfl
  have hsome : seen id log ++ [bit] ≠ [] := by simp
  rw [recalled, seen_of_goesOn hstarts, carried_of_goesOn hstarts, hbit, Option.toList_some,
    if_neg hsome, recalled]
  split
  case isTrue hnone => rw [hnone, List.nil_append]
  case isFalse => rw [rtake_rtake_concat, List.append_assoc]

end Happening

/-! ## Histories of components -/

/-- The history of a probe. -/
def Kind.history? : Kind → Option (List Bool)
  | sink ⟨.probe history, _⟩ => some history
  | _ => none

@[simp] theorem Kind.history?_mapSource (k : Kind) (change : Source → Source) :
    (k.mapSource change).history? = k.history? := by
  cases k <;> rfl

namespace Component

variable {x : Component} {history : List Bool}

theorem history?_reset (x : Component) (now : Float) :
    (x.reset now).kind.history? = x.kind.history?.map fun _ => [] := by
  unfold reset
  cases hk : x.kind with
  | gate g => simp only [Kind.history?, Option.map_none]
  | source s => rfl
  | sink s =>
      obtain ⟨kind, bits⟩ := s
      cases kind <;> rfl

/-- A probe adds the bit on its slot to its history. -/
theorem WellFormed.history?_evaluate (h : x.WellFormed) {bits : List Bool}
    (hbits : bits.length = x.slots.length) : (x.evaluate bits).kind.history? =
      x.kind.history?.map fun history =>
        (history ++ [bits.headD false]).rtake SinkKind.historyLimit := by
  unfold evaluate
  cases hk : x.kind with
  | gate g => simp only [Kind.history?, Option.map_none]
  | source s => simp only [Kind.history?, Option.map_none]
  | sink s =>
      have hlength : s.bits.length = bits.length := by
        rw [h.bits s hk, hbits, h.slots, hk]
        rfl
      have hreceived := Sink.overwrite_of_length hlength
      obtain ⟨kind, old⟩ := s
      cases kind with
      | probe history =>
          simp only [Sink.receive, SinkKind.remember, hreceived, Kind.history?, Option.map_some,
            List.rtake, List.length_append, List.length_singleton]
      | bulb => rfl
      | display => rfl
      | speaker => rfl

end Component

namespace Circuit

variable {c d : Circuit} {id a : ComponentId} {x : Component} {log : List Happening}

/-- The history of a probe of this name. -/
def history? (c : Circuit) (id : ComponentId) : Option (List Bool) :=
  (c.component? id).bind (·.kind.history?)

theorem history?_of_component (hx : c.component? id = some x) :
    c.history? id = x.kind.history? := by
  rw [history?, hx, Option.bind_some]

theorem history?_of_none (hx : c.component? id = none) : c.history? id = none := by
  rw [history?, hx, Option.bind_none]

/-- Wires do not matter for histories. -/
theorem history?_eq_plain (c : Circuit) (id : ComponentId) :
    c.history? id = (c.plain.component id).bind (·.kind.history?) := by
  show (c.component? id).bind _ = ((c.component? id).map (·.unplugged)).bind _
  cases c.component? id <;> rfl

theorem history?_of_plain (h : d.plain.component id = c.plain.component id) :
    d.history? id = c.history? id := by
  rw [history?_eq_plain, h, history?_eq_plain]

/-- A component that is added has the history that it brings along. -/
theorem WellWired.history?_add (h : c.WellWired) (x : Component) (a : ComponentId) :
    (c.add x).2.history? a = if a = (c.add x).1 then x.kind.history? else c.history? a := by
  rw [history?_eq_plain, h.component_add x a, history?_eq_plain]
  split <;> rfl

theorem history?_modify (c : Circuit) {change : Component → Component}
    {keeps : ∀ x, (change x).id = x.id}
    (h : ∀ x, (change x).kind.history? = x.kind.history?) (id a : ComponentId) :
    (c.modify id change keeps).history? a = c.history? a := by
  rw [history?, component?_modify, history?]
  cases c.component? a <;> split <;> simp [h]

theorem history?_map (c : Circuit) (change : Component → Component)
    (keeps : ∀ x, (change x).id = x.id) (a : ComponentId) :
    ({ c with components := c.components.map change keeps } : Circuit).history? a =
      (c.component? a).bind fun x => (change x).kind.history? := by
  rw [history?, component?, Roster.get?_map]
  cases h : c.components.get? a <;> simp [component?, h]

theorem history?_modifySource {fits : Source → Bool} {change : Source → Source}
    (hd : c.modifySource? id fits change = some d) (a : ComponentId) :
    d.history? a = c.history? a := by
  unfold modifySource? at hd
  split at hd
  · split at hd
    · obtain rfl := Option.some.inj hd
      exact c.history?_modify (fun x => Kind.history?_mapSource x.kind change) id a
    · cases hd
  · cases hd

theorem history?_toggleClocks (c : Circuit) (now : Float) (a : ComponentId) :
    (c.toggleClocks now).history? a = c.history? a := by
  refine (history?_map c (toggleDue now) _ a).trans ?_
  simp only [toggleDue, Kind.history?_mapSource, history?]

/-! ## The log of a run -/

/-- What is there at the beginning counts as added then. -/
def opening (c : Circuit) : List Happening :=
  c.components.entries.map fun x => .added x.id (x.kind.history?.getD [])

/-- The turn of a component in a pass. A name without a component has none. -/
def turn (c : Circuit) (id : ComponentId) : List Happening :=
  if c.components.contains id then [.evaluated id ((c.inputValues id).headD false)] else []

/-- The turns of a pass over some components. -/
def turns : List ComponentId → Circuit → List Happening
  | [], _ => []
  | id :: ids, c => c.turn id ++ turns ids (c.evaluateOne id)

end Circuit

/-- The turns of one pass of a simulator. -/
def Simulator.turns (s : Simulator) (c : Circuit) : List Happening :=
  c.turns (s.refresh c).order.closed

/-- The turns of the passes for some rows of a truth table. -/
def Circuit.tableTurns (inputs : List ComponentId) :
    List Nat → Simulator → Circuit → List Happening
  | [], _, _ => []
  | row :: rows, s, c =>
    let set := c.setLevels (inputs.zip (assignment row inputs.length))
    let pass := s.evaluate set
    s.turns set ++ tableTurns inputs rows pass.2.1 pass.2.2

namespace Edit

/-- What an edit makes happen. A component that is copied brings the history along that it has. -/
def happenings : Edit → Circuit → List Happening
  | add x _, c => [.added (c.add x).1 (x.kind.history?.getD [])]
  | copy id new, c =>
    match c.component? id with
    | none => []
    | some x => [.added (c.add (x.withId new)).1 (x.kind.history?.getD [])]
  | evaluate s, c => s.turns c
  | tick s now, c => s.turns (c.toggleClocks now)
  | step s, c => s.turns (c.toggleClocks (s.lastTime + s.settings.interval))
  | reset _, _ => [.reset]
  | tabulate, c =>
    if c.tableInputs.isEmpty || c.tableOutputs.isEmpty then []
    else
      let inputs := c.tableInputs.map (·.1)
      c.tableTurns inputs (List.range (1 <<< inputs.length)) .new
  | _, _ => []

/-- What several edits make happen. -/
def log : List Edit → Circuit → List Happening
  | [], _ => []
  | e :: edits, c => e.happenings c ++ log edits (e.apply c)

end Edit

namespace Circuit

variable {c d : Circuit} {id : ComponentId} {log : List Happening}

/-- Every probe remembers what a log says. -/
def Recalls (c : Circuit) (log : List Happening) : Prop :=
  ∀ id history, c.history? id = some history → history = Happening.recalled id log

namespace Recalls

/-- At the beginning every probe remembers what it has. -/
theorem opening (c : Circuit) : c.Recalls c.opening := by
  intro id history hhistory
  obtain ⟨x, hx, hkind⟩ := Option.bind_eq_some_iff.1 hhistory
  obtain ⟨hmem, rfl⟩ := Roster.get?_eq_some_iff.1 hx
  obtain ⟨before, after, hentries⟩ := List.append_of_mem hmem
  have hincreasing := c.components.increasing
  rw [hentries, List.pairwise_append, List.pairwise_cons] at hincreasing
  have hother : ∀ e ∈ after.map fun y => Happening.added y.id (y.kind.history?.getD []),
      e.starts x.id = false ∧ e.bit? x.id = none := by
    intro e he
    obtain ⟨y, hy, rfl⟩ := List.mem_map.1 he
    exact ⟨beq_false_of_ne fun heq => String.lt_irrefl _ (heq ▸ hincreasing.2.1.1 y hy), rfl⟩
  rw [Circuit.opening, hentries, List.map_append, List.map_cons, List.append_cons,
    Happening.recalled_of_others hother, Happening.recalled_added, hkind, Option.getD_some]

/-- Where histories stay or go, nothing happens. -/
theorem of_history (h : c.Recalls log)
    (hd : ∀ id, d.history? id = c.history? id ∨ d.history? id = none) : d.Recalls log := by
  intro id history hhistory
  rcases hd id with hsame | hnone
  · exact h id history (hsame ▸ hhistory)
  · rw [hnone] at hhistory
    cases hhistory

/-- A turn adds the bit that the component sees to its history. -/
theorem turn (h : c.Recalls log) (hc : c.WellWired) (id : ComponentId) :
    (c.evaluateOne id).Recalls (log ++ c.turn id) := by
  intro a history hhistory
  rw [Circuit.turn]
  by_cases ha : a = id
  · subst ha
    cases hx : c.component? a with
    | none =>
        have hnone := component?_eq_none_of_frame (c.frame_evaluateOne a) hx
        rw [history?_of_none hnone] at hhistory
        cases hhistory
    | some x =>
        have hlength : (c.inputValues a).length = x.slots.length := by
          rw [inputValues, List.length_map, hc.length_driversOf hx, (hc.formed hx).slots]
        rw [history?_of_component (component?_evaluateOne_self hx),
          (hc.formed hx).history?_evaluate hlength] at hhistory
        obtain ⟨old, hold, rfl⟩ := Option.map_eq_some_iff.1 hhistory
        have hfound : c.components.contains a = true := congrArg Option.isSome hx
        rw [if_pos hfound, Happening.recalled_evaluated,
          h a old ((history?_of_component hx).trans hold)]
  · have hother : history = Happening.recalled a log := by
      refine h a history ?_
      rw [history?, ← component?_evaluateOne_of_ne c ha]
      exact hhistory
    have hbit : (Happening.evaluated id ((c.inputValues id).headD false)).bit? a = none :=
      if_neg (Ne.symm ha)
    rw [hother]
    split
    · exact (Happening.recalled_of_other (by rfl) hbit).symm
    · rw [List.append_nil]

/-- So does every turn of a pass, each on the circuit that the turns before it left. -/
theorem turns (h : c.Recalls log) (hc : c.WellWired) (ids : List ComponentId) :
    (c.evaluateAll ids).2.Recalls (log ++ c.turns ids) := by
  rw [evaluateAll_snd]
  induction ids generalizing c log with
  | nil => exact (List.append_nil log).symm ▸ h
  | cons id ids ih =>
      have hrest := ih (h.turn hc id) (hc.of_frame (c.frame_evaluateOne id))
      rwa [List.append_assoc] at hrest

theorem evaluate (h : c.Recalls log) (hc : c.WellWired) (s : Simulator) :
    (s.evaluate c).2.2.Recalls (log ++ s.turns c) :=
  h.turns hc _

theorem tick (h : c.Recalls log) (hc : c.WellWired) (s : Simulator) (now : Float) :
    (s.tick c now).2.2.Recalls (log ++ s.turns (c.toggleClocks now)) := by
  have htoggled : (c.toggleClocks now).Recalls log :=
    h.of_history fun id => .inl (c.history?_toggleClocks now id)
  rw [Simulator.circuit_tick]
  exact htoggled.evaluate (hc.of_frame (c.frame_toggleClocks now)) s

theorem setting {d? : Option Circuit} (h : c.Recalls log)
    (hd : ∀ d, d? = some d → ∀ id, d.history? id = c.history? id) : (d?.getD c).Recalls log := by
  refine h.of_history fun id => .inl ?_
  cases hopt : d? with
  | none => rfl
  | some d => exact hd d hopt id

theorem setLevels (h : c.Recalls log) (levels : List (ComponentId × Bool)) :
    (c.setLevels levels).Recalls log := by
  unfold Circuit.setLevels
  induction levels generalizing c with
  | nil => exact h
  | cons l levels ih => exact ih (h.setting fun d hd => history?_modifySource hd)

theorem tableTurns (h : c.Recalls log) (hc : c.WellWired) (inputs outputs : List ComponentId)
    (rows : List Nat) (s : Simulator) :
    (tableRows inputs outputs rows s c).2.Recalls (log ++ tableTurns inputs rows s c) := by
  induction rows generalizing c s log with
  | nil => exact (List.append_nil log).symm ▸ h
  | cons row rows ih =>
      set set := c.setLevels (inputs.zip (assignment row inputs.length)) with hset
      have hwired : set.WellWired := hc.of_frame (frame_setLevels c _)
      have hrest := ih ((h.setLevels _).evaluate hwired s)
        (hwired.of_frame (frame_evaluate s set)) (s.evaluate set).2.1
      rwa [List.append_assoc] at hrest

theorem tabulate (h : c.Recalls log) (hc : c.WellWired) :
    c.tabulate.2.Recalls (log ++ Edit.happenings .tabulate c) := by
  unfold Circuit.tabulate Edit.happenings
  dsimp only
  split
  · rwa [List.append_nil]
  · rw [List.length_map]
    exact h.tableTurns hc _ _ _ _

/-- After a reset there is nothing to remember, whatever was before. -/
theorem reset (c : Circuit) (log : List Happening) (now : Float) :
    (c.reset now).Recalls (log ++ [.reset]) := by
  intro id history hhistory
  have hbind := (c.history?_map (·.reset now) (fun x => id_reset x now) id).symm.trans hhistory
  obtain ⟨x, -, hx⟩ := Option.bind_eq_some_iff.1 hbind
  rw [x.history?_reset] at hx
  obtain ⟨_, -, rfl⟩ := Option.map_eq_some_iff.1 hx
  exact Happening.recalled_reset.symm

theorem add (h : c.Recalls log) (hc : c.WellWired) (x : Component) :
    (c.add x).2.Recalls (log ++ [.added (c.add x).1 (x.kind.history?.getD [])]) := by
  intro a history hhistory
  rw [hc.history?_add] at hhistory
  split at hhistory
  case isTrue ha =>
    subst ha
    rw [Happening.recalled_added, hhistory, Option.getD_some]
  case isFalse ha =>
    have hstarts : (Happening.added (c.add x).1 (x.kind.history?.getD [])).starts a = false :=
      beq_false_of_ne (Ne.symm ha)
    rw [Happening.recalled_of_other hstarts rfl]
    exact h a history hhistory

theorem remove (h : c.Recalls log) (hc : c.WellWired) (id : ComponentId) :
    (c.remove id).Recalls log := by
  refine h.of_history fun a => ?_
  by_cases ha : a = id
  · exact .inr (history?_of_none (ha ▸ component?_remove_self c id))
  · exact .inl (history?_of_plain (hc.unplugged_remove ha))

theorem disconnect (h : c.Recalls log) (hc : c.WellWired) (k : WireId) :
    (c.disconnect k).Recalls log :=
  h.of_history fun a => .inl (history?_of_plain (hc.unplugged_disconnectAll [k] a))

/-- Wiring touches no history, whether the wire is accepted or refused. -/
theorem settled (h : c.Recalls log) (hc : c.WellWired) (loopsAllowed : Bool)
    (source target : ComponentId) (slot : Nat) :
    (Edit.settled c (c.wireUp loopsAllowed source target slot)).Recalls log := by
  cases hd : c.wireUp loopsAllowed source target slot with
  | error _ => exact h
  | ok d =>
      refine h.of_history fun a => .inl (history?_of_plain ?_)
      exact congrFun (congrArg DriverMap.component (hc.plain_wireUp hd)) a

/-- After every edit probes remember what the log says. -/
theorem apply (h : c.Recalls log) (hc : c.WellWired) (e : Edit) :
    (e.apply c).Recalls (log ++ e.happenings c) := by
  have hquiet : ∀ {d : Circuit}, d.Recalls log → d.Recalls (log ++ []) := fun hd =>
    (List.append_nil log).symm ▸ hd
  cases e with
  | add x _ => exact h.add hc x
  | copy id new =>
      cases hx : c.component? id with
      | none =>
          have happly : (Edit.copy id new).apply c = c := by rw [Edit.apply, hx]; rfl
          have hnothing : (Edit.copy id new).happenings c = [] := by rw [Edit.happenings, hx]
          rw [happly, hnothing]
          exact hquiet h
      | some x =>
          have happly : (Edit.copy id new).apply c = (c.add (x.withId new)).2 := by
            rw [Edit.apply, hx]; rfl
          have hadded : (Edit.copy id new).happenings c =
              [.added (c.add (x.withId new)).1 (x.kind.history?.getD [])] := by
            rw [Edit.happenings, hx]
          rw [happly, hadded]
          exact h.add hc (x.withId new)
  | remove id => exact hquiet (h.remove hc id)
  | connectPorts source sourcePort target targetPort =>
      refine hquiet ?_
      show (Edit.settled c (c.connectPorts source sourcePort target targetPort)).Recalls log
      unfold connectPorts
      split
      · exact h.settled hc false source target targetPort.index
      · exact h
  | connect source target slot => exact hquiet (h.settled hc false source target slot)
  | force source target slot => exact hquiet (h.settled hc true source target slot)
  | disconnect wire => exact hquiet (h.disconnect hc wire)
  | clear =>
      intro _ _ hhistory
      cases hhistory
  | setLevel | setSwitch | press | toggle | setFrequency =>
      exact hquiet (h.setting fun d hd => history?_modifySource hd)
  | setLabel | move =>
      refine hquiet (h.setting fun d hd a => ?_)
      obtain ⟨_, _, rfl⟩ := Option.map_eq_some_iff.1 hd
      exact c.history?_modify (fun _ => by rfl) _ a
  | evaluate s => exact h.evaluate hc s
  | tick s now => exact h.tick hc s now
  | step s => exact h.tick hc s _
  | reset s => exact .reset c log _
  | tabulate => exact h.tabulate hc

/-- So they do after every run. -/
theorem applyAll (h : c.Recalls log) (hc : c.WellWired) (edits : List Edit) :
    (Edit.applyAll edits c).Recalls (log ++ Edit.log edits c) := by
  induction edits generalizing c log with
  | nil => exact (List.append_nil log).symm ▸ h
  | cons e edits ih =>
      have hrest := ih (h.apply hc e) ((e.change hc).wellWired hc)
      rwa [List.append_assoc] at hrest

end Recalls

end Circuit

/-- A probe remembers exactly its latest values. Take any edits of a reachable circuit,
evaluations, ticks, truth tables and resets by any simulators among them, and a probe that is
there in the end and last started afresh without a history: it was added as a new one or was there
from the beginning as one, or everything was reset since. Then its history is, the oldest first,
the end of the list of bits that were on its slot in its evaluations since it started afresh,
namely all of them up to fifty and the latest fifty else. A probe that was copied from another
takes what it brings along, up to fifty bits, for the first that it saw. -/
theorem probes_remember_latest {c : Circuit} (h : c.Reachable) (edits : List Edit)
    {id : ComponentId} {history : List Bool}
    (hprobe : (Edit.applyAll edits c).history? id = some history) :
    let log := c.opening ++ Edit.log edits c
    let seen := Happening.seen id log
    let carried := Happening.carried id log
    (carried = [] → history = seen.rtake 50 ∧ history.length = min 50 seen.length) ∧
      (carried.length ≤ 50 → history = (carried ++ seen).rtake 50) := by
  intro log seen carried
  have hrecalled : history = if seen = [] then carried else (carried ++ seen).rtake 50 :=
    ((Circuit.Recalls.opening c).applyAll h.wellWired edits) id history hprobe
  have hlatest : carried.length ≤ 50 → history = (carried ++ seen).rtake 50 := fun hfew => by
    rw [hrecalled]
    split
    case isTrue hnone =>
      rw [hnone, List.append_nil, List.rtake, Nat.sub_eq_zero_of_le hfew, List.drop_zero]
    case isFalse => rfl
  refine ⟨fun hnew => ?_, hlatest⟩
  have hhistory : history = seen.rtake 50 := by
    simpa only [hnew, List.nil_append, List.length_nil, Nat.zero_le, true_implies] using hlatest
  refine ⟨hhistory, ?_⟩
  rw [hhistory, List.rtake, List.length_drop]
  omega

/-- A switch and a probe that is wired after a first pass, watched for longer than it remembers,
cut off for a last pass, and copied. -/
def watchedSwitch : List Edit :=
  [.add ((Component.source .switch .origin).withId "tap") (by decide),
    .add ((Component.sink (.probe []) .origin).withId "probe") (by decide),
    .evaluate .new, .connect "tap" "probe" 0, .setSwitch "tap" true] ++
  List.replicate 50 (.tick .new 50) ++
  [.disconnect "connection-1", .evaluate .new, .copy "probe" "copy", .evaluate .new]

/-- The probe saw 53 bits and forgot the first three of them. The copy saw the last one of these
and brought the others along. -/
theorem probes_remember_latest_watchedSwitch : Circuit.empty.Reachable ∧
    let c := Edit.applyAll watchedSwitch .empty
    let log := Circuit.empty.opening ++ Edit.log watchedSwitch .empty
    let history := List.replicate 48 true ++ [false, false]
    c.history? "probe" = some history ∧ c.history? "copy" = some history ∧
      (Happening.seen "probe" log).length = 53 ∧ history = (Happening.seen "probe" log).rtake 50 ∧
      Happening.seen "copy" log = [false] ∧
      history = (Happening.carried "copy" log ++ Happening.seen "copy" log).rtake 50 := by
  have hreach : Circuit.empty.Reachable := reachable_applyAll []
  refine ⟨hreach, ?_⟩
  intro c log history
  have hprobe : c.history? "probe" = some history := by decide +kernel
  have hcopy : c.history? "copy" = some history := by decide +kernel
  have hnew : Happening.carried "probe" log = [] := by decide +kernel
  exact ⟨hprobe, hcopy, by decide +kernel,
    ((probes_remember_latest hreach watchedSwitch hprobe).1 hnew).1, by decide +kernel,
    (probes_remember_latest hreach watchedSwitch hcopy).2 (by decide +kernel)⟩

end LogicCircuit
