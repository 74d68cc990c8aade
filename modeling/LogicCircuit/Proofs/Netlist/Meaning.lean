import LogicCircuit.Proofs.Netlist.Success
import LogicCircuit.Proofs.Netlist.Writing
import LogicCircuit.Proofs.Simulation.Denotation

/-!
# What the netlist of a circuit means

In the netlist of a circuit the signal of a slot resolves to what drives the slot: the input of a
source that varies, a constant, or the gate itself (`resolve_driverSignal`); an empty slot to the
constant false. So a gate of the netlist comes before another only if it does in the circuit, and
the netlist of a circuit without cycles is built to the end: `buildable_ofCircuit`.
-/

namespace LogicCircuit

namespace Netlist

open Circuit (mem_gates_iff mem_sources_iff)

/-- What the signal of a component resolves to. -/
def driverOf (x : Component) : Driver :=
  match x.kind with
  | .gate _ => .gate (signalOf x)
  | .source ⟨.high, _⟩ => .constant true
  | .source ⟨.low, _⟩ => .constant false
  | _ => .input (signalOf x)

/-- What the signal of a slot resolves to. -/
def slotDriver (c : Circuit) (driver : Option ComponentId) : Driver :=
  ((driver.bind c.component?).map driverOf).getD (.constant false)

variable {c : Circuit} {x : Component} {id : ComponentId} {text : String} {p q : Part}
  {driver : Option ComponentId} {slot : Nat}

/-- What varies is driven as an input. -/
theorem driverOf_of_varies {s : Source} (hk : x.kind = .source s) (hx : varies x) :
    driverOf x = .input (signalOf x) := by
  obtain ⟨kind, level⟩ := s
  unfold driverOf
  rw [hk]
  cases kind <;> simp [varies, hk, Kind.source?, SourceKind.isConstant] at hx ⊢

/-- What does not vary is driven as a constant. -/
theorem driverOf_of_constant {on : Bool} (hop : x.kind.operation = .constant on)
    (hx : varies x = false) : driverOf x = .constant on := by
  unfold driverOf
  cases hk : x.kind with
  | gate g => rw [hk] at hop; cases hop
  | sink s => simp [varies, hk, Kind.source?] at hx
  | source s =>
      obtain ⟨kind, level⟩ := s
      rw [hk] at hop
      cases kind <;> simp [varies, hk, Kind.source?, SourceKind.isConstant] at hx <;>
        cases hop <;> rfl

/-- The signal of a component is driven by the component, unless that is a constant. -/
theorem resolveWithin_signalOf (hn : (ofCircuit c).driven.Nodup) (hlegible : Legible c)
    (hx : c.component? id = some x) (hsink : ¬ x.kind.isSink) (asked : String) (steps : Nat) :
    (ofCircuit c).resolveWithin asked (steps + 1) (signalOf x) = .ok (driverOf x) := by
  rcases named_or_default hx hsink with hnamed | ⟨on, hop, hconstant, hname⟩
  · rcases List.mem_append.1 hnamed with hinput | hwritten
    · obtain ⟨hsource, hvaries⟩ := List.mem_filter.1 hinput
      obtain ⟨-, s, hk⟩ := mem_sources_iff.1 hsource
      rw [driverOf_of_varies hk hvaries]
      exact resolveWithin_input (List.mem_map_of_mem hinput) asked steps
    · have hsignal : componentSignal c x ∈ (ofCircuit c).signals :=
        mem_signals_iff.2 (.inl ⟨x, hwritten, rfl⟩)
      rcases List.mem_append.1 hwritten with hconstant | hgate
      · obtain ⟨hsource, hconstant⟩ := List.mem_filter.1 hconstant
        have hvaries : varies x = false := by
          simpa using (Bool.and_eq_true_iff.1 hconstant).1
        obtain ⟨-, s, hk⟩ := mem_sources_iff.1 hsource
        obtain ⟨on, hop⟩ : ∃ on, x.kind.operation = .constant on := by
          obtain ⟨kind, level⟩ := s
          rw [hk]
          cases kind <;> exact ⟨_, rfl⟩
        rw [driverOf_of_constant hop hvaries]
        exact resolveWithin_constant hn hsignal hop asked steps
      · obtain ⟨-, g, hk⟩ := mem_gates_iff.1 hgate
        have hop : x.kind.operation = .gate g := by rw [hk]; rfl
        have hdriver : driverOf x = .gate (signalOf x) := by rw [driverOf, hk]
        rw [hdriver]
        exact resolveWithin_gate hn hsignal ⟨g, hop⟩ asked steps
  · rw [driverOf_of_constant hop hconstant]
    have hnew : signalOf x ∉ (ofCircuit c).driven := fun hmem =>
      hlegible _ hmem (by rw [hname]; cases on <;> simp)
    exact resolveWithin_default hnew (by rw [hname]; cases on <;> rfl) asked steps

/-- The signal of a slot is driven by what drives the slot. -/
theorem resolveWithin_driverSignal (hwired : c.WellWired) (hn : (ofCircuit c).driven.Nodup)
    (hlegible : Legible c) (hdriver : driver ∈ c.driversOf id) (asked : String) (steps : Nat) :
    (ofCircuit c).resolveWithin asked (steps + 1) (driverSignal c driver) =
      .ok (slotDriver c driver) := by
  cases driver with
  | none =>
      have hnew : "gnd" ∉ (ofCircuit c).driven := fun hmem => hlegible _ hmem (by simp)
      exact resolveWithin_default hnew rfl asked steps
  | some a =>
      obtain ⟨y, hy, hsink⟩ :=
        hwired.component?_driver (Circuit.mem_next_of_mem_driversOf hdriver)
      simp only [driverSignal, slotDriver, Option.bind_some, hy, Option.map_some,
        Option.getD_some]
      exact resolveWithin_signalOf hn hlegible hy hsink asked steps

theorem resolve_driverSignal (hwired : c.WellWired) (hn : (ofCircuit c).driven.Nodup)
    (hlegible : Legible c) (hdriver : driver ∈ c.driversOf id) :
    (ofCircuit c).resolve (driverSignal c driver) = .ok (slotDriver c driver) :=
  resolveWithin_driverSignal hwired hn hlegible hdriver _ _

/-- An output is driven by what drives the slot that it stands for. -/
theorem resolve_output (hwired : c.WellWired) (hn : (ofCircuit c).driven.Nodup)
    (hlegible : Legible c) {o : String × String} (ho : o ∈ allOutputs c)
    (hdriver : driver ∈ c.driversOf id) (hsignal : o.2 = driverSignal c driver) :
    (ofCircuit c).resolve o.1 = .ok (slotDriver c driver) := by
  have hbuffer : bufferSignal o ∈ (ofCircuit c).signals := mem_signals_iff.2 (.inr ⟨o, ho, rfl⟩)
  -- the buffer itself is one of the signals that bound the search
  obtain ⟨steps, hsteps⟩ := Nat.exists_eq_add_one_of_ne_zero
    (List.length_pos_of_mem hbuffer).ne'
  rw [resolve, hsteps]
  refine (resolveWithin_buffer hn hbuffer rfl rfl o.1 (steps + 1)).trans ?_
  rw [hsignal]
  exact resolveWithin_driverSignal hwired hn hlegible hdriver _ _

/-! ## The order of the netlist -/

/-- Components with names of their own have different names. -/
theorem eq_of_signalOf_eq (hn : (ofCircuit c).driven.Nodup) {y : Component} (hx : x ∈ named c)
    (hy : y ∈ named c) (hname : signalOf x = signalOf y) : x = y := by
  rw [driven_ofCircuit] at hn
  exact List.inj_on_of_nodup_map (List.nodup_append.1 hn).1 hx hy hname

theorem named_of_mem_gates (hx : x ∈ c.gates) : x ∈ named c :=
  List.mem_append_right _ (List.mem_append_right _ hx)

/-- A slot of a gate is fed by what drives the slot of a gate of the circuit. -/
theorem exists_of_feeds_gate (hwired : c.WellWired) (hn : (ofCircuit c).driven.Nodup)
    (hlegible : Legible c) {name : String} {d : Driver}
    (h : (ofCircuit c).Feeds (.gate name) slot d) :
    ∃ x ∈ c.gates, signalOf x = name ∧ ∃ driver, (c.driversOf x.id)[slot]? = some driver ∧
      d = slotDriver c driver := by
  obtain ⟨s, hs, rfl, ⟨g, hg⟩, arg, harg, hd⟩ := h
  rcases mem_signals_iff.1 hs with ⟨x, hx, rfl⟩ | ⟨o, -, rfl⟩
  · have hgate : x ∈ c.gates := by
      rcases List.mem_append.1 hx with hx | hx
      · obtain ⟨-, ⟨kind, level⟩, hk⟩ := mem_sources_iff.1 (List.mem_filter.1 hx).1
        have hop : x.kind.operation = .gate g := hg
        rw [hk] at hop
        cases kind <;> cases hop
      · exact hx
    have hargs : ((c.driversOf x.id).map (driverSignal c))[slot]? = some arg := harg
    rw [List.getElem?_map, Option.map_eq_some_iff] at hargs
    obtain ⟨driver, hdriver, rfl⟩ := hargs
    rw [resolve_driverSignal hwired hn hlegible (List.mem_of_getElem? hdriver)] at hd
    exact ⟨x, hgate, rfl, driver, hdriver, (Except.ok.inj hd).symm⟩
  · cases hg

/-- The place of a part in the order of the building: gates stand in the order of evaluation. -/
def rank (c : Circuit) : Part → Nat
  | .gate name =>
    match c.gates.find? fun x => signalOf x == name with
    | some x => c.evaluationOrder.closed.idxOf x.id + 1
    | none => 0
  | .output _ => c.evaluationOrder.closed.length + 2
  | _ => 0

theorem rank_gate (hn : (ofCircuit c).driven.Nodup) (hx : x ∈ c.gates) :
    rank c (.gate (signalOf x)) = c.evaluationOrder.closed.idxOf x.id + 1 := by
  have hsome : (c.gates.find? fun y => signalOf y == signalOf x).isSome :=
    List.find?_isSome.2 ⟨x, hx, beq_self_eq_true _⟩
  obtain ⟨y, hy⟩ := Option.isSome_iff_exists.1 hsome
  have hname : signalOf y = signalOf x := by simpa using List.find?_some hy
  have heq := eq_of_signalOf_eq hn (named_of_mem_gates (List.mem_of_find?_eq_some hy))
    (named_of_mem_gates hx) hname
  rw [rank, hy, heq]

theorem rank_partOf_lt_output (c : Circuit) (d : Driver) (name : String) :
    rank c (partOf d) < rank c (.output name) := by
  cases d with
  | input name => exact Nat.succ_pos _
  | constant on => exact Nat.succ_pos _
  | gate name =>
      simp only [partOf, rank]
      split
      case h_1 x _ =>
        have hle := c.evaluationOrder.closed.idxOf_le_length (a := x.id)
        omega
      case h_2 => omega

/-- What drives a gate comes before it. -/
theorem rank_slotDriver_lt (hwired : c.WellWired) (hacyclic : c.readerGraph.Acyclic)
    (hn : (ofCircuit c).driven.Nodup) (hx : x ∈ c.gates) (hdriver : driver ∈ c.driversOf x.id) :
    rank c (partOf (slotDriver c driver)) < rank c (.gate (signalOf x)) := by
  rw [rank_gate hn hx]
  cases driver with
  | none => exact Nat.succ_pos _
  | some a =>
      have hnext := Circuit.mem_next_of_mem_driversOf hdriver
      obtain ⟨y, hy, hsink⟩ := hwired.component?_driver hnext
      have hid : y.id = a := Roster.name_of_get? hy
      simp only [slotDriver, Option.bind_some, hy, Option.map_some, Option.getD_some]
      unfold driverOf
      split
      case h_1 g hk =>
        have hgate : y ∈ c.gates := mem_gates_iff.2 ⟨hid ▸ hy, g, hk⟩
        have hbefore := hwired.precedes_of_acyclicCone (hwired.acyclicCone hacyclic x.id) hnext
        show rank c (.gate (signalOf y)) < _
        rw [rank_gate hn hgate, hid]
        exact Nat.succ_lt_succ hbefore
      case h_2 => exact Nat.succ_pos _
      case h_3 => exact Nat.succ_pos _
      case h_4 => exact Nat.succ_pos _

theorem rank_lt_of_before (hwired : c.WellWired) (hacyclic : c.readerGraph.Acyclic)
    (hn : (ofCircuit c).driven.Nodup) (hlegible : Legible c) (h : (ofCircuit c).Before p q) :
    rank c p < rank c q := by
  obtain ⟨slot, d, rfl, hfeeds⟩ := h
  cases q with
  | input name => cases hfeeds
  | constant on => cases hfeeds
  | output name => exact rank_partOf_lt_output c d name
  | gate name =>
      obtain ⟨x, hx, rfl, driver, hdriver, rfl⟩ := exists_of_feeds_gate hwired hn hlegible hfeeds
      exact rank_slotDriver_lt hwired hacyclic hn hx (List.mem_of_getElem? hdriver)

/-- The netlist of a circuit without cycles and with legible names is built to the end. -/
theorem buildable_ofCircuit (hwired : c.WellWired) (hacyclic : c.readerGraph.Acyclic)
    (hn : (ofCircuit c).driven.Nodup) (hlegible : Legible c) : (ofCircuit c).Buildable where
  nodup := hn
  arity := arity_ofCircuit hwired
  args s hs hgate arg harg := by
    rcases mem_signals_iff.1 hs with ⟨x, -, rfl⟩ | ⟨o, -, rfl⟩
    · obtain ⟨driver, hdriver, rfl⟩ := List.mem_map.1 harg
      exact ⟨_, resolve_driverSignal hwired hn hlegible hdriver⟩
    · obtain ⟨g, hg⟩ := hgate
      cases hg
  outputs name hname := by
    obtain ⟨o, ho, rfl⟩ := List.mem_map.1 hname
    obtain ⟨x, -, slot, driver, hdriver, heq⟩ := mem_allOutputs_iff.1 ho
    have hsignal : o.2 = driverSignal c driver := by rw [heq]
    exact ⟨_, resolve_output hwired hn hlegible ho (List.mem_of_getElem? hdriver) hsignal⟩
  acyclic p hcycle := by
    have hlt : Relation.TransGen (· < ·) (rank c p) (rank c p) :=
      hcycle.lift (rank c) fun _ _ h => rank_lt_of_before hwired hacyclic hn hlegible h
    exact lt_irrefl _ (Relation.transGen_eq_self.le _ _ hlt)

end Netlist

end LogicCircuit
