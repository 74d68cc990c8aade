import LogicCircuit.Proofs.Circuit.Adding
import LogicCircuit.Proofs.Simulation.Levels
import LogicCircuit.Proofs.Synthesis.Evaluation
import LogicCircuit.Samples

/-!
# Building samples

The steps that samples are built of never refuse. A component under a new name is put there and
nothing else changes (`Placed`), a gate is driven by what it is given (`Laid.exists_gate`), and so
is a bulb (`Laid.exists_bulb`). `Laid` is what each of them keeps: no wire was forced, names are
those that the sample gave or those of gates, and every source is a switch under the name that its
label asks for.
-/

namespace LogicCircuit

/-- What is a switch without its state is a switch. -/
theorem Kind.eq_switch_of_blank {k : Kind} {level : Bool}
    (h : k.blank = (Kind.source ⟨.switch, level⟩).blank) : ∃ on, k = .source ⟨.switch, on⟩ := by
  cases k with
  | gate g => cases h
  | sink s => cases h
  | source s =>
      obtain ⟨kind, on⟩ := s
      have hkind := congrArg Source.kind (Kind.source.inj h)
      cases kind with
      | switch => exact ⟨on, rfl⟩
      | _ => cases hkind

/-- What is a sink without its state is a sink of that kind, with as many bits. -/
theorem Kind.exists_sink_of_blank {k : Kind} {s : Sink} (h : k.blank = (Kind.sink s).blank) :
    ∃ t, k = .sink t ∧ t.kind.blank = s.kind.blank ∧ t.bits.length = s.bits.length := by
  cases k with
  | gate g => cases h
  | source s => cases h
  | sink t =>
      obtain ⟨hkind, hbits⟩ := Sink.mk.inj (Kind.sink.inj h)
      exact ⟨t, rfl, hkind, by simpa using congrArg List.length hbits⟩

/-- What is a bulb without its state is a bulb. -/
theorem Kind.eq_bulb_of_blank {k : Kind} (h : k.blank = (Kind.sink (.ofKind .bulb)).blank) :
    ∃ on, k = .sink ⟨.bulb, [on]⟩ := by
  obtain ⟨⟨kind, bits⟩, rfl, hkind, hbits⟩ := Kind.exists_sink_of_blank h
  obtain ⟨on, rfl⟩ := List.length_eq_one_iff.1 hbits
  cases kind <;> cases hkind
  exact ⟨on, rfl⟩

/-- What is a probe without its state is a probe. -/
theorem Kind.eq_probe_of_blank {k : Kind} {history : List Bool} {on : Bool}
    (h : k.blank = (Kind.sink ⟨.probe history, [on]⟩).blank) :
    ∃ history on, k = .sink ⟨.probe history, [on]⟩ := by
  obtain ⟨⟨kind, bits⟩, rfl, hkind, hbits⟩ := Kind.exists_sink_of_blank h
  obtain ⟨on, rfl⟩ := List.length_eq_one_iff.1 hbits
  cases kind <;> cases hkind
  exact ⟨_, on, rfl⟩

namespace Samples

open Edit (Unforced)
open Synthesis (Filled HasSwitch Assigned switchAt inputName)

variable {given given' : Set ComponentId} {c d : Circuit} {id source target : ComponentId}
  {x : Component} {e : Expr}

/-! ## Steps -/

/-- What follows a step starts where the step ends. -/
theorem bind_eq_of_ok {α β : Type} {step : Step α} {next : α → Step β} {a : α}
    (h : step c = .ok (a, d)) : (step >>= next) c = next a d := by
  show (step c >>= fun p => next p.1 p.2) = next a d
  rw [h]
  rfl

/-- Driving all slots of a component succeeds where connecting all operands does. -/
theorem driveAll_eq_of_connectAll {inputs : List ComponentId} {slot : Nat}
    (h : Synthesis.connectAll id inputs slot c = .ok d) :
    driveAll id inputs slot c = .ok ((), d) := by
  induction inputs generalizing slot c with
  | nil =>
      obtain rfl := Except.ok.inj h
      rfl
  | cons a inputs ih =>
      rw [Synthesis.connectAll] at h
      split at h
      · cases h
      · rename_i k c' hconnect
        have hdrive : drive a id slot c = .ok ((), c') := by rw [drive, hconnect]; rfl
        rw [driveAll, bind_eq_of_ok hdrive]
        exact ih h

/-- A component has been put into a circuit, under a new name and with nothing on its slots. -/
structure Placed (x : Component) (id : ComponentId) (c d : Circuit) : Prop where
  run : Run Unforced c d
  /-- Nothing else has changed. -/
  same : c.SameBut id d
  /-- The name is new. -/
  new : c.component? id = none
  component : d.component? id = some (x.withId id).unplugged
  /-- It can be driven. -/
  ready : Filled d id x.kind [] x.kind.arity

/-- A component under a new name is put there. -/
theorem exists_put_named (hc : c.WellWired) (hx : x.WellFormed) (hid : x.id ≠ "")
    (hnew : c.component? x.id = none) : ∃ d, put x c = .ok (x.id, d) ∧ Placed x x.id c d := by
  have hrun : Run Unforced c (c.add x).2 := .add hx
  have hadd : c.add x = (x.id, c.place x) := Circuit.add_eq_place hid hnew
  rw [hadd] at hrun
  exact ⟨_, congrArg Except.ok hadd, hrun, c.sameBut_place x, hnew, c.component?_place_self x,
    Synthesis.filled_place hc hx hnew⟩

/-- A component without a name is put there under one that is generated for it. -/
theorem exists_put_unnamed (hc : c.WellWired) (hx : x.WellFormed) (hid : x.id = "") :
    ∃ n d, put x c = .ok (Circuit.componentName x.kind.category n, d) ∧
      Placed x (Circuit.componentName x.kind.category n) c d := by
  have hrun : Run Unforced c (c.add x).2 := .add hx
  set n := c.freshComponentNumber x.kind.category
  set name := Circuit.componentName x.kind.category n
  set base : Circuit := { c with lastNumber := n }
  have hadd : c.add x = (name, base.place (x.withId name)) := by rw [Circuit.add, if_pos hid]
  have hnew : c.component? name = none := Circuit.component?_freshComponentNumber c _
  have hwired : base.WellWired := hc.congr rfl rfl
  have hsame : c.SameBut name base := ⟨fun _ => rfl, fun _ => rfl⟩
  rw [hadd] at hrun
  exact ⟨n, _, congrArg Except.ok hadd, hrun, hsame.trans (base.sameBut_place (x.withId name)),
    hnew, base.component?_place_self (x.withId name),
    Synthesis.filled_place hwired (hx.withId name) hnew⟩

/-- A component with one slot is put there under its name and driven by what it is given. -/
theorem exists_put_driven (hc : c.WellWired) (hx : x.WellFormed) (hid : x.id ≠ "")
    (hnew : c.component? x.id = none) (harity : x.kind.arity = 1)
    (hsource : ∃ y, c.component? source = some y ∧ ¬ y.kind.isSink) :
    ∃ c' d, put x c = .ok (x.id, c') ∧ drive source x.id 0 c' = .ok ((), d) ∧
      Run Unforced c d ∧ c.SameBut x.id d ∧
      (∃ z, d.component? x.id = some z ∧ z.kind = x.kind) ∧ d.driversOf x.id = [some source] := by
  obtain ⟨c', hput, hrun, hsame, -, -, hready⟩ := exists_put_named hc hx hid hnew
  obtain ⟨y, hy, hout⟩ := hsource
  have hne : source ≠ x.id := by
    rintro rfl
    rw [hnew] at hy
    cases hy
  rw [harity] at hready
  obtain ⟨k, d, hconnect, -, hsame', -, hcomponent, hdrivers, -⟩ :=
    hready.connect (hrun.wellWired hc) hne ((hsame.component hne).trans hy) hout
  have hdrive : drive source x.id 0 c' = .ok ((), d) := by
    have hfirst : c'.connect source x.id 0 = .ok (k, d) := hconnect
    rw [drive, hfirst]
    rfl
  exact ⟨c', d, hput, hdrive, hrun.trans (.connect hconnect), hsame.trans hsame', hcomponent,
    hdrivers⟩

/-! ## Circuits in the course of building -/

/-- A circuit in the course of building a sample. -/
structure Laid (given : Set ComponentId) (c : Circuit) : Prop where
  /-- No wire was forced. -/
  run : Run Unforced .empty c
  /-- A name was given by the sample or generated for a gate. -/
  names : ∀ {id x}, c.component? id = some x →
    id ∈ given ∨ ∃ n, id = Circuit.componentName "gate" n
  /-- A source is a switch under the name that its label asks for. -/
  switches : ∀ {id x s}, c.component? id = some x → x.kind = .source s →
    ∃ v level, id = inputName v ∧ s = ⟨.switch, level⟩ ∧ x.label = some v

theorem Laid.empty : Laid ∅ .empty := ⟨.refl, (nomatch ·), (nomatch ·)⟩

theorem Laid.wired (h : Laid given c) : c.WellWired := h.run.wellWired .empty

theorem Laid.mono (h : Laid given c) (hsub : given ⊆ given') : Laid given' c :=
  ⟨h.run, fun hx => (h.names hx).imp_left (hsub ·), h.switches⟩

/-- A name that was not given and is not that of a gate is new. -/
theorem Laid.new (h : Laid given c) (hid : id ∉ given)
    (hgate : ∀ n, id ≠ Circuit.componentName "gate" n) : c.component? id = none := by
  cases hx : c.component? id with
  | none => rfl
  | some x =>
      rcases h.names hx with hmem | ⟨n, hname⟩
      · exact absurd hmem hid
      · exact absurd hname (hgate n)

/-- One more component keeps a circuit laid out. -/
theorem Laid.grow (h : Laid given c) (hrun : Run Unforced c d) (hsame : c.SameBut id d)
    (hx : d.component? id = some x) (hsub : given ⊆ given')
    (hname : id ∈ given' ∨ ∃ n, id = Circuit.componentName "gate" n)
    (hsource : ∀ s, x.kind = .source s →
      ∃ v level, id = inputName v ∧ s = ⟨.switch, level⟩ ∧ x.label = some v) : Laid given' d := by
  refine ⟨h.run.trans hrun, fun {a y} hy => ?_, fun {a y s} hy hs => ?_⟩
  · by_cases ha : a = id
    · exact ha ▸ hname
    · exact (h.names ((hsame.component ha).symm.trans hy)).imp_left (hsub ·)
  · by_cases ha : a = id
    · subst ha
      obtain rfl := Option.some.inj (hx.symm.trans hy)
      exact hsource s hs
    · exact h.switches ((hsame.component ha).symm.trans hy) hs

/-- A connection changes no output. -/
theorem outputOf_wireUp (hc : c.WellWired) {loopsAllowed : Bool} {slot : Nat} {k : WireId}
    (h : c.wireUp loopsAllowed source target slot = .ok (k, d)) (a : ComponentId) :
    d.outputOf (some a) = c.outputOf (some a) := by
  have hplain : d.plain.component a = c.plain.component a := by rw [hc.plain_wireUp h]; rfl
  have hread : ∀ c : Circuit, c.outputOf (some a) = (c.plain.component a).any (·.output) := by
    intro c
    show _ = ((c.component? a).map (·.unplugged)).any (·.output)
    rw [Circuit.outputOf, Option.bind_some]
    cases c.component? a <;> rfl
  rw [hread, hread, hplain]

theorem outputOf_connectAll {inputs : List ComponentId} {slot : Nat} (hc : c.WellWired)
    (h : Synthesis.connectAll target inputs slot c = .ok d) (a : ComponentId) :
    d.outputOf (some a) = c.outputOf (some a) := by
  induction inputs generalizing slot c with
  | nil =>
      obtain rfl := Except.ok.inj h
      rfl
  | cons b inputs ih =>
      rw [Synthesis.connectAll] at h
      split at h
      · cases h
      · rename_i k c' hconnect
        exact (ih (hc.wireUp hconnect) h).trans (outputOf_wireUp hc hconnect a)

/-- A gate is put there under a new name and driven by what it is given; it is off. -/
theorem Laid.exists_gate (h : Laid given c) (g : Gate) {inputs : List ComponentId}
    (harity : inputs.length = g.arity)
    (hinputs : ∀ a ∈ inputs, ∃ y, c.component? a = some y ∧ ¬ y.kind.isSink) (column row : Nat) :
    ∃ id x d, gate g inputs column row c = .ok (id, d) ∧ Laid given d ∧ c.SameBut id d ∧
      c.component? id = none ∧ d.component? id = some x ∧ x.kind = .gate g ∧ x.output = false ∧
      d.driversOf id = inputs.map some := by
  set x := Component.gate g (place column row)
  obtain ⟨n, c', hput, hrun, hsame, hnew, hplaced, hready⟩ :=
    exists_put_unnamed h.wired (Component.wellFormed_gate g _ : x.WellFormed) rfl
  set id := Circuit.componentName x.kind.category n
  have hinputs' : ∀ a ∈ inputs, a ≠ id ∧ ∃ y, c'.component? a = some y ∧ ¬ y.kind.isSink := by
    intro a ha
    obtain ⟨y, hy, hout⟩ := hinputs a ha
    have hne : a ≠ id := by
      rintro rfl
      rw [hnew] at hy
      cases hy
    exact ⟨hne, y, (hsame.component hne).trans hy, hout⟩
  have hwired := hrun.wellWired h.wired
  have hready' : Filled c' id (.gate g) [] inputs.length := harity ▸ hready
  obtain ⟨d, hconnect, -, hsame', -, ⟨y, hy, hkind⟩, hdrivers, -⟩ :=
    hready'.connectAll hwired hinputs'
  have hgrown : c.SameBut id d := hsame.trans hsame'
  have hoff : y.output = false := by
    have hkept := outputOf_connectAll hwired hconnect id
    rw [Circuit.outputOf, Circuit.outputOf, Option.bind_some, Option.bind_some, hy, hplaced]
      at hkept
    exact hkept
  refine ⟨id, y, d, ?_, ?_, hgrown, hnew, hy, hkind, hoff, by simpa using hdrivers⟩
  · have hdrive : driveAll id inputs 0 c' = .ok ((), d) := driveAll_eq_of_connectAll hconnect
    rw [gate, bind_eq_of_ok hput, bind_eq_of_ok hdrive]
    rfl
  · refine h.grow (hrun.trans (Synthesis.run_connectAll hconnect).unforced) hgrown hy
      (fun _ ha => ha) (.inr ⟨n, rfl⟩) fun s hs => ?_
    rw [hkind] at hs
    cases hs

/-- The name of a gate starts with its letter. -/
theorem ne_gate {name : String} (h : name.toList.head? ≠ some 'g') (n : Nat) :
    name ≠ Circuit.componentName "gate" n := by
  rintro rfl
  have hname : Circuit.componentName "gate" n = "gate-" ++ n.repr := rfl
  exact h (by simp [hname])

/-- A switch is put there under its name and is read as its variable. -/
theorem Laid.exists_switch (h : Laid given c) {v : String} (hv : inputName v ∉ given)
    (row : Nat) :
    ∃ d, switch v row c = .ok (inputName v, d) ∧ Laid (insert (inputName v) given) d ∧
      c.Extends d ∧ HasSwitch d v ∧ d.ReadsAs (inputName v) (.var v) := by
  have hnew : c.component? (inputName v) = none :=
    h.new hv (ne_gate (by simp [inputName]))
  have hne : inputName v ≠ "" := (Synthesis.Role.switch v).name_ne_empty
  set x := ((Component.source .switch ⟨50, 100 + 80 * Float.ofNat row⟩).withId
    (inputName v)).withLabel v
  have hformed : x.WellFormed := ((Component.wellFormed_source _ _).withId _).withLabel v
  obtain ⟨d, hput, hrun, hsame, -, hx, -⟩ := exists_put_named h.wired hformed hne hnew
  have hread : d.ReadsAs (inputName v) (.var v) := .source hx rfl
  refine ⟨d, hput, ?_, hsame.extends hnew, ⟨_, false, hx, rfl⟩, hread⟩
  refine h.grow hrun hsame hx (Set.subset_insert _ _) (.inl (Set.mem_insert _ _)) fun s hs => ?_
  exact ⟨v, false, rfl, (Kind.source.inj hs).symm, rfl⟩

theorem hasSwitch_of_extends {v : String} (h : HasSwitch c v) (hcd : c.Extends d) :
    HasSwitch d v := by
  obtain ⟨x, level, hx, hk⟩ := h
  exact ⟨x, level, hcd.component hx, hk⟩

theorem hasSwitch_of_frame {v : String} (hframe : d.frame = c.frame) (h : HasSwitch c v) :
    HasSwitch d v := by
  obtain ⟨x, level, hx, hk⟩ := h
  obtain ⟨y, hy, hxy⟩ := Circuit.component?_of_frame hframe.symm hx
  have hblank : x.kind.blank = y.kind.blank := (Component.Frame.mk.inj hxy).2.2
  rw [hk] at hblank
  obtain ⟨level', hk'⟩ := Kind.eq_switch_of_blank hblank.symm
  exact ⟨y, level', hy, hk'⟩

/-- A bulb of some name is there, and what drives it is read as an expression. -/
def HasBulb (c : Circuit) (name : String) (e : Expr) : Prop :=
  ∃ x source, c.component? ("output-" ++ name) = some x ∧ x.kind = .sink (.ofKind .bulb) ∧
    c.driversOf ("output-" ++ name) = [some source] ∧ c.ReadsAs source e

theorem HasBulb.extends {name : String} (h : HasBulb c name e) (hcd : c.Extends d) :
    HasBulb d name e := by
  obtain ⟨x, source, hx, hk, hdriven, hread⟩ := h
  exact ⟨x, source, hcd.component hx, hk, (hcd.drivers hx).trans hdriven, hread.extends hcd⟩

/-- A bulb is put there under its name and driven by what it is given. -/
theorem Laid.exists_bulb (h : Laid given c) {name : String} (hname : "output-" ++ name ∉ given)
    (column row : Nat) (hread : c.ReadsAs source e) :
    ∃ d, bulb name column row source c = .ok ((), d) ∧
      Laid (insert ("output-" ++ name) given) d ∧ c.Extends d ∧ HasBulb d name e := by
  have hnew : c.component? ("output-" ++ name) = none := h.new hname (ne_gate (by simp))
  have hne : "output-" ++ name ≠ "" := by simp
  set x := ((Component.sink .bulb (place column row)).withId ("output-" ++ name)).withLabel name
  have hformed : x.WellFormed := ((Component.wellFormed_sink _ _).withId _).withLabel name
  obtain ⟨c', d, hput, hdrive, hrun, hsame, ⟨z, hz, hkind⟩, hdrivers⟩ :=
    exists_put_driven h.wired hformed hne hnew rfl hread.exists_component
  have hcd : c.Extends d := hsame.extends hnew
  refine ⟨d, ?_, ?_, hcd, z, source, hz, hkind, hdrivers, hread.extends hcd⟩
  · rw [bulb, bind_eq_of_ok hput]
    exact hdrive
  · exact h.grow hrun hsame hz (Set.subset_insert _ _) (.inl (Set.mem_insert _ _))
      fun s hs => nomatch hs.symm.trans hkind

/-! ## Showing values -/

/-- A bulb shows a bit and puts it out. -/
def ShowsBit (c : Circuit) (id : ComponentId) (on : Bool) : Prop :=
  ∃ x, c.component? id = some x ∧ x.kind = .sink ⟨.bulb, [on]⟩ ∧ x.value = .bit on ∧ x.output = on

/-- There is a switch for each of some variables, and no other source. -/
structure Switched (order : List String) (c : Circuit) : Prop where
  has : ∀ v ∈ order, HasSwitch c v
  /-- Every source is the switch of one of the variables and bears its name. -/
  sources : ∀ {id x s}, c.component? id = some x → x.kind = .source s →
    ∃ v ∈ order, ∃ level, id = inputName v ∧ s = ⟨.switch, level⟩ ∧ x.label = some v

section Evaluation

variable {order : List String} {value : String → Bool} {before : Circuit}

/-- A circuit that was laid out has a switch for each variable whose switch has a name that the
sample gave, and no other source. -/
theorem Laid.switched (h : Laid given c) (horder : ∀ v, inputName v ∈ given → v ∈ order)
    (hhas : ∀ v ∈ order, HasSwitch c v) : Switched order c := by
  refine ⟨hhas, fun {id x s} hx hk => ?_⟩
  obtain ⟨v, level, rfl, rfl, hlabel⟩ := h.switches hx hk
  rcases h.names hx with hgiven | ⟨n, hname⟩
  · exact ⟨v, horder v hgiven, level, rfl, rfl, hlabel⟩
  · exact absurd hname (ne_gate (by simp [inputName]) n)

/-- A component has the value of the expression that it is read as, in any state of the circuit in
which the sources are at the levels that they are read as. -/
theorem denote_eq_of_frame (hc : c.WellWired) (hframe : d.frame = c.frame)
    (hlevels : ∀ {a x s}, c.component? a = some x → x.kind = .source s →
      d.level? a = some ((s.expr x.label a).eval value))
    (hread : c.ReadsAs id e) : d.denote id = e.eval value := by
  have hcone : ∀ {a f}, c.ReadsAs a f → d.AcyclicCone a := by
    intro a f ha
    rw [Circuit.AcyclicCone, Circuit.driverGraph_of_frame hframe]
    exact ha.acyclicCone hc
  have hgate : ∀ {a x g}, c.component? a = some x → x.kind = .gate g →
      ∃ y, d.component? a = some y ∧ y.kind = .gate g := by
    intro a x g hx hk
    obtain ⟨y, hy, hxy⟩ := Circuit.component?_of_frame hframe.symm hx
    have hblank : x.kind.blank = y.kind.blank := (Component.Frame.mk.inj hxy).2.2
    rw [hk] at hblank
    exact ⟨y, hy, (Kind.blank_eq_gate hblank.symm)⟩
  induction hread with
  | source hx hk => exact Circuit.denote_of_level? (hcone (.source hx hk)) (hlevels hx hk)
  | inverter hx hk hd ha ih =>
      obtain ⟨y, hy, hk'⟩ := hgate hx hk
      rw [Circuit.denote_eq (hcone (.inverter hx hk hd ha)) hy, hk', Circuit.denotedInputs,
        Circuit.driversOf_of_frame hframe, hd]
      simp [Kind.respond, Gate.eval, Gate.apply, Expr.eval, ih]
  | operator hx hk hd ha hb iha ihb =>
      obtain ⟨y, hy, hk'⟩ := hgate hx hk
      rw [Circuit.denote_eq (hcone (.operator hx hk hd ha hb)) hy, hk', Circuit.denotedInputs,
        Circuit.driversOf_of_frame hframe, hd, BinaryOp.eval_spell]
      simp [Kind.respond, Gate.eval, BinaryOp.apply, iha, ihb]

/-- With its switches set to the values of the variables, in whatever state the circuit was
before, a component has the value of the expression that it is read as. -/
theorem Switched.denote_eq (h : Switched order c) (hc : c.WellWired)
    (hframe : before.frame = c.frame) (hset : Assigned value order before d)
    (hread : c.ReadsAs id e) : d.denote id = e.eval value := by
  refine denote_eq_of_frame hc (hset.frame.trans hframe) (fun {a x s} hx hk => ?_) hread
  obtain ⟨v, hv, level, rfl, rfl, hlabel⟩ := h.sources hx hk
  obtain ⟨y, -, hy⟩ := hset.switches hv
  rw [Circuit.level?, hy, hlabel]
  rfl

/-- With its switches set, a pass of a simulator that belongs to the circuit makes a bulb show the
value of its expression. -/
theorem Switched.showsBit (h : Switched order c) (hc : c.WellWired)
    (hframe : before.frame = c.frame) (hset : Assigned value order before d) {s : Simulator}
    (hs : s.BelongsTo c) {name : String} (hbulb : HasBulb c name e) :
    ShowsBit (s.evaluate d).2.2 ("output-" ++ name) (e.eval value) := by
  obtain ⟨x, source, hx, hk, hdrivers, hread⟩ := hbulb
  have hsame : d.frame = c.frame := hset.frame.trans hframe
  have hd : d.WellWired := hc.of_frame hsame
  obtain ⟨y, hy, hxy⟩ := Circuit.component?_of_frame hsame.symm hx
  have hblank : x.kind.blank = y.kind.blank := (Component.Frame.mk.inj hxy).2.2
  have hfirst : (d.driversOf ("output-" ++ name)).head? = some (some source) := by
    rw [Circuit.driversOf_of_frame hsame, hdrivers]
    rfl
  have hcone : d.AcyclicCone source := by
    rw [Circuit.AcyclicCone, Circuit.driverGraph_of_frame hsame]
    exact hread.acyclicCone hc
  obtain ⟨bits, hlength, hbit, hpass⟩ := hd.exists_received (hs.of_frame hsame) hy hfirst hcone
  rw [hk] at hblank
  obtain ⟨on, hon⟩ := Kind.eq_bulb_of_blank hblank.symm
  rw [hon] at hlength
  obtain ⟨b, rfl⟩ := List.length_eq_one_iff.1 hlength
  rw [h.denote_eq hc hframe hset hread] at hbit
  obtain rfl : b = e.eval value := Option.some.inj hbit
  refine ⟨_, hpass, ?_, ?_, ?_⟩
  · rw [Component.evaluate, hon]
    rfl
  · rw [Component.value, Component.evaluate, hon]
    rfl
  · rw [Component.evaluate, hon]
    rfl

end Evaluation

end Samples

end LogicCircuit
