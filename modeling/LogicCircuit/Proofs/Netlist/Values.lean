import LogicCircuit.Proofs.Netlist.Success
import LogicCircuit.Proofs.Simulation.Mirrors
import LogicCircuit.Proofs.Synthesis.Evaluation

/-!
# The values of signals

`Netlist.Means` gives signals their values by recursion on the netlist, without a circuit: nothing
is resolved, and a buffer is an operation like any other. What drives a name brings it the value
that it means (`means_of_resolve`), so in the circuit of a netlist every gate has the value that
its signal means: `Lit.means_gate`, by induction along the order of evaluation. After one pass the
gates and the bulbs show these values.
-/

namespace LogicCircuit

/-- The value of an operation for the values of its arguments. -/
def Operation.apply : Operation → List Bool → Bool
  | gate g, bits => g.eval bits
  | buffer, bits => bits.headD false
  | constant on, _ => on

namespace Netlist

/-- What a signal means while the inputs are at some levels. An input means its level, and any
other signal that is driven what its operation gives for the meanings of its arguments. Where
nothing drives them, `gnd` and `vdd` are constants. -/
inductive Means (n : Netlist) (level : String → Bool) : String → Bool → Prop where
  | input {name : String} : name ∈ n.inputs → Means n level name (level name)
  | signal {s : Signal} (bit : String → Bool) : s ∈ n.signals →
      (∀ arg ∈ s.args, Means n level arg (bit arg)) →
      Means n level s.name (s.operation.apply (s.args.map bit))
  | ground : "gnd" ∉ n.driven → Means n level "gnd" false
  | power : "vdd" ∉ n.driven → Means n level "vdd" true

/-- Every signal has as many arguments as its operation needs. -/
def FullyApplied (n : Netlist) : Prop := ∀ s ∈ n.signals, s.args.length = s.operation.arity

variable {n : Netlist} {c d e : Circuit} {p : Part} {s : Signal} {name arg asked : String}
  {level : String → Bool} {order : List String} {steps slot : Nat} {driver : Driver}
  {on on' : Bool}

/-! ## Meanings -/

theorem mem_driven_of_signal (hs : s ∈ n.signals) : s.name ∈ n.driven :=
  List.mem_append_right _ (List.mem_map_of_mem hs)

theorem Means.default (hnew : name ∉ n.driven) (h : defaultConstant? name = some on) :
    n.Means level name on := by
  unfold defaultConstant? at h
  split at h
  · subst name
    obtain rfl := Option.some.inj h
    exact .ground hnew
  · split at h
    · subst name
      obtain rfl := Option.some.inj h
      exact .power hnew
    · cases h

/-- A name means something as an input, as a signal, or as a constant where nothing drives it. -/
theorem Means.inversion (h : n.Means level name on) :
    (name ∈ n.inputs ∧ on = level name) ∨
    (∃ s ∈ n.signals, s.name = name ∧ ∃ bit : String → Bool,
      (∀ arg ∈ s.args, n.Means level arg (bit arg)) ∧ on = s.operation.apply (s.args.map bit)) ∨
    (name ∉ n.driven ∧ defaultConstant? name = some on) := by
  cases h with
  | input hname => exact .inl ⟨hname, rfl⟩
  | signal bit hs hargs => exact .inr (.inl ⟨_, hs, rfl, bit, hargs, rfl⟩)
  | ground hnew => exact .inr (.inr ⟨hnew, rfl⟩)
  | power hnew => exact .inr (.inr ⟨hnew, rfl⟩)

theorem Means.of_input (hn : n.driven.Nodup) (hname : name ∈ n.inputs)
    (h : n.Means level name on) : on = level name := by
  rcases h.inversion with ⟨-, heq⟩ | ⟨s, hs, rfl, -⟩ | ⟨hnew, -⟩
  · exact heq
  · exact absurd hname (not_mem_inputs hn hs)
  · exact absurd (List.mem_append_left _ hname) hnew

/-- What a signal means is what its operation gives for the meanings of its arguments. -/
theorem Means.of_signal (hn : n.driven.Nodup) (hs : s ∈ n.signals)
    (h : n.Means level s.name on) : ∃ bit : String → Bool,
      (∀ arg ∈ s.args, n.Means level arg (bit arg)) ∧
      on = s.operation.apply (s.args.map bit) := by
  rcases h.inversion with ⟨hinput, -⟩ | ⟨t, ht, hname, hmeans⟩ | ⟨hnew, -⟩
  · exact absurd hinput (not_mem_inputs hn hs)
  · obtain rfl := signal_unique hn hs ht hname
    exact hmeans
  · exact absurd (mem_driven_of_signal hs) hnew

theorem Means.of_not_driven (hnew : name ∉ n.driven) (h : n.Means level name on) :
    defaultConstant? name = some on := by
  rcases h.inversion with ⟨hinput, -⟩ | ⟨t, ht, rfl, -⟩ | ⟨-, hdefault⟩
  · exact absurd (List.mem_append_left _ hinput) hnew
  · exact absurd (mem_driven_of_signal ht) hnew
  · exact hdefault

/-- A name means one thing at most. -/
theorem Means.unique (hn : n.driven.Nodup) (h : n.Means level name on)
    (h' : n.Means level name on') : on' = on := by
  induction h generalizing on' with
  | input hname => exact h'.of_input hn hname
  | signal bit hs _ ih =>
      obtain ⟨bit', hargs', rfl⟩ := h'.of_signal hn hs
      exact congrArg _ (List.map_congr_left fun arg harg => ih arg harg (hargs' arg harg))
  | ground hnew => exact (Option.some.inj (h'.of_not_driven hnew)).symm
  | power hnew => exact (Option.some.inj (h'.of_not_driven hnew)).symm

/-- What some names mean, each of them something, is given by one function. -/
theorem exists_map_of_forall₂ (hn : n.driven.Nodup) {args : List String} {bits : List Bool}
    (h : List.Forall₂ (n.Means level) args bits) :
    ∃ bit : String → Bool, args.map bit = bits ∧ ∀ arg ∈ args, n.Means level arg (bit arg) := by
  classical
  -- every name means one thing at most, so whether it means `true` tells what it means
  refine ⟨fun arg => decide (n.Means level arg true), ?_⟩
  have hvalue : ∀ {arg on}, n.Means level arg on → decide (n.Means level arg true) = on := by
    intro arg on h
    cases on with
    | true => exact decide_eq_true h
    | false => exact decide_eq_false fun htrue => nomatch h.unique hn htrue
  induction h with
  | nil => exact ⟨rfl, fun _ h => nomatch h⟩
  | cons h _ ih =>
      refine ⟨by rw [List.map_cons, ih.1, hvalue h], List.forall_mem_cons.2 ⟨?_, ih.2⟩⟩
      show n.Means level _ (decide _)
      rwa [hvalue h]

/-- A signal means what its operation gives for whatever its arguments mean. -/
theorem Means.of_args (hn : n.driven.Nodup) (hs : s ∈ n.signals) {bits : List Bool}
    (hbits : List.Forall₂ (n.Means level) s.args bits) :
    n.Means level s.name (s.operation.apply bits) := by
  obtain ⟨bit, rfl, hmeans⟩ := exists_map_of_forall₂ hn hbits
  exact .signal bit hs hmeans

/-! ## What drives a name -/

/-- The value that a driver brings. -/
def Brings (n : Netlist) (level : String → Bool) : Driver → Bool → Prop
  | .input name, on => on = level name
  | .gate name, on => n.Means level name on
  | .constant value, on => on = value

/-- A signal is found under its name. -/
theorem signal?_ne_none (hs : s ∈ n.signals) : n.signal? s.name ≠ none := fun hnone =>
  List.find?_eq_none.1 hnone s hs (beq_self_eq_true _)

/-- A name means the value that its driver brings. -/
theorem means_of_resolveWithin (happlied : n.FullyApplied)
    (h : n.resolveWithin asked steps name = .ok driver) (hon : n.Brings level driver on) :
    n.Means level name on := by
  induction steps generalizing name with
  | zero => cases h
  | succ steps ih =>
      unfold resolveWithin at h
      split at h
      case isTrue hinput =>
        obtain rfl := Except.ok.inj h
        obtain rfl : on = level name := hon
        exact .input hinput
      case isFalse hinput =>
        split at h
        case h_1 g args hs =>
          obtain rfl := Except.ok.inj h
          exact hon
        case h_2 value args hs =>
          obtain rfl := Except.ok.inj h
          obtain rfl : on = value := hon
          obtain ⟨hmem, rfl⟩ := mem_of_signal? hs
          obtain rfl : args = [] := List.length_eq_zero_iff.1 (happlied _ hmem)
          exact .signal (fun _ => false) hmem (fun _ harg => nomatch harg)
        case h_3 args hs =>
          obtain ⟨hmem, rfl⟩ := mem_of_signal? hs
          obtain ⟨arg, rfl⟩ := List.length_eq_one_iff.1 (happlied _ hmem)
          refine .signal (fun _ => on) hmem fun arg' harg => ?_
          obtain rfl := List.mem_singleton.1 harg
          exact ih h
        case h_4 hs =>
          split at h
          case h_1 value hdefault =>
            obtain rfl := Except.ok.inj h
            obtain rfl : on = value := hon
            refine .default (fun hdriven => ?_) hdefault
            rcases List.mem_append.1 hdriven with hmem | hmem
            · exact hinput hmem
            · obtain ⟨t, ht, rfl⟩ := List.mem_map.1 hmem
              exact signal?_ne_none ht hs
          case h_2 => cases h

theorem means_of_resolve (happlied : n.FullyApplied) (h : n.resolve name = .ok driver)
    (hon : n.Brings level driver on) : n.Means level name on :=
  means_of_resolveWithin happlied h hon

/-! ## Parts and slots -/

/-- A component of the circuit of a netlist is one of its parts. -/
theorem Realizes.exists_part (hd : n.Realizes d) {id : ComponentId} {x : Component}
    (hx : d.component? id = some x) : ∃ p : Part, id = p.id ∧ n.PartKind p x.kind :=
  hd.part id x.unplugged (congrArg (Option.map _) hx)

/-- The switches are those of the inputs. -/
theorem Realizes.exists_switch_iff (hd : n.Realizes d) {id : ComponentId} :
    (∃ x level, d.component? id = some x ∧ x.kind = .source ⟨.switch, level⟩) ↔
      ∃ name ∈ n.inputs, id = inputId name := by
  constructor
  · rintro ⟨x, level, hx, hk⟩
    obtain ⟨p, hid, hpart⟩ := hd.exists_part hx
    rw [hk] at hpart
    cases p with
    | input name => exact ⟨name, hpart.1, hid⟩
    | gate name =>
        obtain ⟨-, -, -, g, -, hgate⟩ := hpart
        cases hgate
    | output name => cases hpart.2
    | constant on => cases on <;> cases hpart
  · rintro ⟨name, hname, rfl⟩
    obtain ⟨x, hx, -, hk⟩ := hd.exists_component (hd.input name hname)
    exact ⟨x, _, hx, hk⟩

/-- The gates are those of the signals that are gates. -/
theorem Realizes.exists_gate_iff (hd : n.Realizes d) {id : ComponentId} :
    (∃ x g, d.component? id = some x ∧ x.kind = .gate g) ↔
      ∃ s ∈ n.signals, IsGate s ∧ id = gateId s.name := by
  constructor
  · rintro ⟨x, g, hx, hk⟩
    obtain ⟨p, hid, hpart⟩ := hd.exists_part hx
    rw [hk] at hpart
    cases p with
    | gate name =>
        obtain ⟨s, hs, rfl, g', hop, -⟩ := hpart
        exact ⟨s, hs, ⟨g', hop⟩, hid⟩
    | input name => cases hpart.2
    | output name => cases hpart.2
    | constant on => cases hpart
  · rintro ⟨s, hs, hgate, rfl⟩
    obtain ⟨x, hx, -, -, -, g, -, hk⟩ := hd.exists_component (hd.gate s hs hgate)
    exact ⟨x, g, hx, hk⟩

/-- The sinks are the bulbs of the outputs. -/
theorem Realizes.exists_sink_iff (hd : n.Realizes d) {id : ComponentId} :
    (∃ x s, d.component? id = some x ∧ x.kind = .sink s) ↔
      ∃ name ∈ n.outputs, id = outputId name := by
  constructor
  · rintro ⟨x, s, hx, hk⟩
    obtain ⟨p, hid, hpart⟩ := hd.exists_part hx
    rw [hk] at hpart
    cases p with
    | output name => exact ⟨name, hpart.1, hid⟩
    | input name => cases hpart.2
    | gate name =>
        obtain ⟨-, -, -, g, -, hgate⟩ := hpart
        cases hgate
    | constant on => cases hpart
  · rintro ⟨name, hname, rfl⟩
    obtain ⟨x, hx, -, hk⟩ := hd.exists_component (hd.output name hname)
    exact ⟨x, _, hx, hk⟩

/-- What drives a slot of a gate is what the argument resolves to. -/
theorem Realizes.exists_driver_gate (hd : n.Realizes d) (hn : n.driven.Nodup) (hs : s ∈ n.signals)
    (hgate : IsGate s) (harg : s.args[slot]? = some arg) :
    ∃ driver, n.resolve arg = .ok driver ∧
      (d.driversOf (gateId s.name))[slot]? = some (some (partOf driver).id) := by
  obtain ⟨b, hb⟩ := Option.isSome_iff_exists.1
    (hd.gateDriven s hs hgate slot (List.getElem?_eq_some_iff.1 harg).1)
  obtain ⟨driver, rfl, t, ht, hname, -, arg', harg', hdriver⟩ := hd.feeds_part hb
  obtain rfl := signal_unique hn hs ht hname
  obtain rfl := Option.some.inj (harg.symm.trans harg')
  exact ⟨driver, hdriver, Option.join_eq_some_iff.1 hb⟩

/-- What drives a bulb is what the output resolves to. -/
theorem Realizes.exists_driver_output (hd : n.Realizes d) (hname : name ∈ n.outputs) :
    ∃ driver, n.resolve name = .ok driver ∧
      (d.driversOf (outputId name))[0]? = some (some (partOf driver).id) := by
  obtain ⟨b, hb⟩ := Option.isSome_iff_exists.1 (hd.outputDriven name hname)
  obtain ⟨driver, rfl, -, -, hdriver⟩ := hd.feeds_part hb
  exact ⟨driver, hdriver, Option.join_eq_some_iff.1 hb⟩

/-! ## Values in the circuit -/

/-- The circuit of a netlist with its switches at some levels. It has no cycles. -/
structure Lit (n : Netlist) (level : String → Bool) (d e : Circuit) : Prop where
  nodup : n.driven.Nodup
  applied : n.FullyApplied
  realizes : n.Realizes d
  acyclic : d.readerGraph.Acyclic
  frame : e.frame = d.frame
  input : ∀ name ∈ n.inputs, ∃ x, e.component? (inputId name) = some x ∧
    x.kind = .source ⟨.switch, level name⟩
  others : ∀ p : Part, (∀ name, p ≠ .input name) → e.component? p.id = d.component? p.id

/-- The value in a circuit of what a name resolves to. -/
def carried (n : Netlist) (e : Circuit) (name : String) : Bool :=
  (n.resolve name).toOption.elim false fun driver => e.denote (partOf driver).id

namespace Lit

variable (h : n.Lit level d e)

include h

theorem wired : e.WellWired := h.realizes.wired.of_frame h.frame

theorem acyclicCone (id : ComponentId) : e.AcyclicCone id :=
  h.wired.acyclicCone (Circuit.readerGraph_of_frame h.frame ▸ h.acyclic) id

theorem driversOf (id : ComponentId) : e.driversOf id = d.driversOf id :=
  congrFun (Circuit.driversOf_of_frame h.frame) id

/-- A part that is no input is what it was. -/
theorem exists_component (hp : Has d p) (hinput : ∀ name, p ≠ .input name) :
    ∃ x, e.component? p.id = some x ∧ n.PartKind p x.kind := by
  obtain ⟨x, hx, hk⟩ := h.realizes.exists_component hp
  exact ⟨x, (h.others p hinput).trans hx, hk⟩

/-- The gate of a signal has its function. -/
theorem exists_gate (hs : s ∈ n.signals) (hgate : IsGate s) : ∃ x g,
    e.component? (gateId s.name) = some x ∧ x.kind = .gate g ∧ s.operation = .gate g := by
  obtain ⟨x, hx, t, ht, hname, g, hg, hk⟩ :=
    h.exists_component (h.realizes.gate s hs hgate) nofun
  obtain rfl := signal_unique h.nodup hs ht hname
  exact ⟨x, g, hx, hk, hg⟩

/-- A source has its level. -/
theorem denote_source {id : ComponentId} {x : Component} {source : Source}
    (hx : e.component? id = some x) (hk : x.kind = .source source) :
    e.denote id = source.level := by
  rw [Circuit.denote_eq (h.acyclicCone id) hx, hk]
  rfl

/-- A name means the value of what drives it, if that is no gate or has the value of its signal.
-/
theorem means_of_driver (hdriver : n.resolve name = .ok driver) (hhas : Has d (partOf driver))
    (hgates : ∀ s ∈ n.signals, IsGate s → driver = .gate s.name →
      n.Means level s.name (e.denote (gateId s.name))) :
    n.Means level name (e.denote (partOf driver).id) := by
  refine means_of_resolve h.applied hdriver ?_
  have hoffers := offers_of_resolve hdriver
  cases driver with
  | input name =>
      obtain ⟨x, hx, hk⟩ := h.input name hoffers
      exact h.denote_source hx hk
  | gate name =>
      obtain ⟨s, hs, rfl, hgate⟩ := hoffers
      exact hgates s hs hgate rfl
  | constant value =>
      obtain ⟨x, hx, hk⟩ := h.exists_component hhas nofun
      exact (h.denote_source hx hk).trans (by cases value <;> rfl)

/-- What drives a slot of a gate has the value of its argument. -/
theorem exists_driver_gate (hs : s ∈ n.signals) (hgate : IsGate s)
    (harg : s.args[slot]? = some arg) : ∃ driver, n.resolve arg = .ok driver ∧
      (e.driversOf (gateId s.name))[slot]? = some (some (partOf driver).id) ∧
      n.carried e arg = e.denote (partOf driver).id := by
  obtain ⟨driver, hdriver, hdrives⟩ := h.realizes.exists_driver_gate h.nodup hs hgate harg
  rw [← h.driversOf] at hdrives
  exact ⟨driver, hdriver, hdrives, by rw [carried, hdriver]; rfl⟩

/-- The inputs of a gate have the values of its arguments. -/
theorem denotedInputs_gate (hs : s ∈ n.signals) (hgate : IsGate s) :
    e.denotedInputs (gateId s.name) = s.args.map (n.carried e) := by
  obtain ⟨x, g, hx, hk, hop⟩ := h.exists_gate hs hgate
  have hlength :
      (e.denotedInputs (gateId s.name)).length = (s.args.map (n.carried e)).length := by
    rw [h.wired.length_denotedInputs hx, List.length_map, h.applied s hs, hk, hop]
    rfl
  refine List.ext_getElem hlength fun slot _ hlt => ?_
  rw [List.length_map] at hlt
  obtain ⟨driver, -, hdrives, hvalue⟩ :=
    h.exists_driver_gate hs hgate (List.getElem?_eq_getElem hlt)
  have hget := (List.getElem?_eq_some_iff.1 hdrives).2
  simp only [Circuit.denotedInputs, List.getElem_map, hget, hvalue, Option.elim]

/-- Every gate has the value that its signal means. -/
theorem means_gate {s : Signal} (hs : s ∈ n.signals) (hgate : IsGate s) :
    n.Means level s.name (e.denote (gateId s.name)) := by
  obtain ⟨x, g, hx, hk, hop⟩ := h.exists_gate hs hgate
  have hargs : ∀ arg ∈ s.args, n.Means level arg (n.carried e arg) := by
    intro arg harg
    obtain ⟨slot, harg⟩ := List.mem_iff_getElem?.1 harg
    obtain ⟨driver, hdriver, hdrives, hvalue⟩ := h.exists_driver_gate hs hgate harg
    have hmem := List.mem_of_getElem? hdrives
    -- what drives the gate comes first in the order of evaluation
    have hbefore := h.wired.precedes_of_acyclicCone (h.acyclicCone _)
      (Circuit.mem_next_of_mem_driversOf hmem)
    rw [hvalue]
    refine h.means_of_driver hdriver (h.realizes.has_of_driver (h.driversOf _ ▸ hmem))
      fun t ht htgate heq => ?_
    subst heq
    exact means_gate ht htgate
  have hmeans := Means.signal (n.carried e) hs hargs
  rwa [hop, Operation.apply, ← h.denotedInputs_gate hs hgate,
    show g.eval _ = Kind.respond (.gate g) _ from rfl, ← hk,
    ← Circuit.denote_eq (h.acyclicCone _) hx] at hmeans
termination_by e.evaluationOrder.closed.idxOf (gateId s.name)
decreasing_by exact hbefore

/-- What drives a name has the value that the name means. -/
theorem means_driver (hdriver : n.resolve name = .ok driver) (hhas : Has d (partOf driver)) :
    n.Means level name (e.denote (partOf driver).id) :=
  h.means_of_driver hdriver hhas fun _ hs hgate _ => h.means_gate hs hgate

/-- After a pass a gate shows what its signal means. -/
theorem value_gate (hs : s ∈ n.signals) (hgate : IsGate s) {m : Simulator} (hm : m.BelongsTo e) :
    ∃ on, n.Means level s.name on ∧
      ((m.evaluate e).2.2.component? (gateId s.name)).map (·.value) = some (.bit on) := by
  obtain ⟨x, g, hx, hk, hop⟩ := h.exists_gate hs hgate
  refine ⟨_, h.means_gate hs hgate, ?_⟩
  rw [h.wired.value_evaluate hm hx (h.acyclicCone _), Circuit.denote_eq (h.acyclicCone _) hx, hk]
  rfl

/-- After a pass a bulb shows what its signal means. -/
theorem value_output (hname : name ∈ n.outputs) {m : Simulator} (hm : m.BelongsTo e) :
    ∃ on, n.Means level name on ∧
      ((m.evaluate e).2.2.component? (outputId name)).map (·.value) = some (.bit on) := by
  obtain ⟨driver, hdriver, hdrives⟩ := h.realizes.exists_driver_output hname
  have hhas := h.realizes.has_of_driver (List.mem_of_getElem? hdrives)
  obtain ⟨x, hx, -, hk⟩ := h.exists_component (h.realizes.output name hname) nofun
  refine ⟨_, h.means_driver hdriver hhas, ?_⟩
  have hfirst : (e.denotedInputs (outputId name)).headD false = e.denote (partOf driver).id := by
    rw [List.headD_eq_head?_getD, List.head?_eq_getElem?, Circuit.denotedInputs,
      List.getElem?_map, h.driversOf, hdrives]
    rfl
  rw [← hfirst]
  refine (h.wired.value_evaluate hm hx (h.acyclicCone _)).trans ?_
  rw [hk]
  rfl

end Lit

/-! ## Setting the switches -/

/-- Each input has a switch. -/
theorem Realizes.hasSwitch (hd : n.Realizes d) (hname : name ∈ n.inputs) :
    Synthesis.HasSwitch d name := by
  obtain ⟨x, hx, -, hk⟩ := hd.exists_component (hd.input name hname)
  exact ⟨x, _, hx, hk⟩

/-- Setting the switches of all inputs, in any order, brings the circuit to these levels. -/
theorem Realizes.exists_lit (hd : n.Realizes d) (hn : n.driven.Nodup) (happlied : n.FullyApplied)
    (hacyclic : d.readerGraph.Acyclic) (horder : ∀ name, name ∈ order ↔ name ∈ n.inputs)
    (level : String → Bool) : ∃ e,
      order.foldlM (fun c name => c.setSwitch? (inputId name) (level name)) d = some e ∧
        n.Lit level d e := by
  obtain ⟨e, hset, hassigned⟩ :=
    Synthesis.exists_setSwitches level fun name hname => hd.hasSwitch ((horder name).1 hname)
  refine ⟨e, hset, hn, happlied, hd, hacyclic, hassigned.frame, fun name hname => ?_,
    fun p hp => hassigned.others fun name _ heq => hp name (Part.id_injective heq)⟩
  obtain ⟨x, -, hx⟩ := hassigned.switches ((horder name).2 hname)
  exact ⟨_, hx, rfl⟩

end Netlist

end LogicCircuit
