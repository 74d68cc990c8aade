import LogicCircuit.Document.Basic
import LogicCircuit.Netlist.Circuit
import LogicCircuit.Proofs.Circuit.Runs
import LogicCircuit.Synthesis

/-!
# Where circuits come from

A circuit is new, or is loaded from a document, from a netlist or from an expression, and is then
edited. Each loader only adds new components and connects them, so a loaded circuit could have
been made by hand: `Loaded.assembled`. The main result is `two_records_agree`: in every circuit
that operations can lead to, the wires and the slots of the components tell the same.
-/

namespace LogicCircuit

variable {c d : Circuit}

namespace Component

/-- A component as it comes into being: nothing is on its slots, a source puts out its level and
anything else nothing, and a sink has not seen a bit. -/
structure IsNew (x : Component) : Prop where
  slots : x.slots = List.replicate x.kind.arity none
  output : x.output = (ofKind x.kind x.position).output
  unchanged : x.changed = false
  bits : ∀ s, x.kind = .sink s → s.bits = List.replicate s.kind.arity false

instance (x : Component) : Decidable x.IsNew :=
  decidable_of_iff (x.slots = List.replicate x.kind.arity none ∧
      x.output = (ofKind x.kind x.position).output ∧ x.changed = false ∧
      x.kind.sink?.all fun s => s.bits = List.replicate s.kind.arity false)
    ⟨fun ⟨hslots, houtput, hchanged, hbits⟩ =>
        ⟨hslots, houtput, hchanged, fun s hs => by simpa [hs, Kind.sink?] using hbits⟩,
      fun h => ⟨h.slots, h.output, h.unchanged, by
        cases hk : x.kind with
        | gate g => rfl
        | source s => rfl
        | sink s => simpa [Kind.sink?] using h.bits s hk⟩⟩

theorem isNew_ofKind (kind : Kind) (position : Point)
    (hbits : ∀ s, kind = .sink s → s.bits = List.replicate s.kind.arity false) :
    (ofKind kind position).IsNew :=
  ⟨rfl, rfl, rfl, hbits⟩

theorem isNew_gate (g : Gate) (position : Point) : (gate g position).IsNew :=
  isNew_ofKind _ _ fun _ h => nomatch h

theorem isNew_source (k : SourceKind) (position : Point) : (source k position).IsNew :=
  isNew_ofKind _ _ fun _ h => nomatch h

theorem isNew_sink (k : SinkKind) (position : Point) : (sink k position).IsNew :=
  isNew_ofKind _ _ fun s h => by
    obtain rfl := Kind.sink.inj h
    rfl

theorem IsNew.withId {x : Component} (h : x.IsNew) (id : ComponentId) : (x.withId id).IsNew :=
  ⟨h.slots, h.output, h.unchanged, h.bits⟩

theorem IsNew.withLabel {x : Component} (h : x.IsNew) (label : String) :
    (x.withLabel label).IsNew :=
  ⟨h.slots, h.output, h.unchanged, h.bits⟩

theorem IsNew.wellFormed {x : Component} (h : x.IsNew) : x.WellFormed where
  slots := by rw [h.slots, List.length_replicate]
  bits := fun s hs => by rw [h.bits s hs, List.length_replicate]

theorem wellFormed_gate (g : Gate) (position : Point) : (gate g position).WellFormed :=
  (isNew_gate g position).wellFormed

theorem wellFormed_source (k : SourceKind) (position : Point) : (source k position).WellFormed :=
  (isNew_source k position).wellFormed

theorem wellFormed_sink (k : SinkKind) (position : Point) : (sink k position).WellFormed :=
  (isNew_sink k position).wellFormed

theorem WellFormed.withLabel {x : Component} (h : x.WellFormed) (label : String) :
    (x.withLabel label).WellFormed :=
  ⟨h.slots, h.bits⟩

end Component

namespace Edit

/-- If the edit adds a component, it is a new one. -/
def AddsNew : Edit → Prop
  | add x _ => x.IsNew
  | _ => True

/-- The edit forces no wire and adds no component but a new one. -/
def Assembles (e : Edit) : Prop := e.Unforced ∧ e.AddsNew

end Edit

open Edit (Unforced Assembles)

/-- Where a sequence of computations succeeds, the first of them does. -/
theorem ok_of_bind_ok {ε α β : Type} {x : Except ε α} {f : α → Except ε β} {b : β}
    (h : (x >>= f) = .ok b) : ∃ a, x = .ok a ∧ f a = .ok b := by
  cases x with
  | error e => cases h
  | ok a => exact ⟨a, rfl, h⟩

/-- Where a result is changed, there is one. -/
theorem ok_of_map_ok {ε α β : Type} {x : Except ε α} {f : α → β} {b : β}
    (h : x.map f = .ok b) : ∃ a, x = .ok a ∧ f a = b := by
  cases x with
  | error e => cases h
  | ok a => exact ⟨a, rfl, Except.ok.inj h⟩

/-- Where there is a result, the computation succeeds with it. -/
theorem ok_of_toOption {ε α : Type} {x : Except ε α} {a : α} (h : x.toOption = some a) :
    x = .ok a := by
  cases x with
  | error e => cases h
  | ok b => exact congrArg Except.ok (Option.some.inj h)

theorem Run.add {x : Component} (hx : x.WellFormed) : Run Unforced c (c.add x).2 :=
  .single (.add x hx) rfl

theorem Run.addNew {x : Component} (hx : x.IsNew) : Run Assembles c (c.add x).2 :=
  .single (.add x hx.wellFormed) ⟨rfl, hx⟩

theorem Run.join {source target : ComponentId} {slot : Nat} {k : WireId}
    (h : c.connect source target slot = .ok (k, d)) : Run Assembles c d := by
  have hrun : Run Assembles c (Edit.settled c (c.connect source target slot)) :=
    .single (.connect source target slot) ⟨rfl, trivial⟩
  rwa [h] at hrun

/-- What is assembled is assembled without forcing a wire. -/
theorem Run.unforced (h : Run Assembles c d) : Run Unforced c d := h.mono fun _ he => he.1

theorem Run.connect {source target : ComponentId} {slot : Nat} {k : WireId}
    (h : c.connect source target slot = .ok (k, d)) : Run Unforced c d :=
  (Run.join h).unforced

namespace Document

/-- A new kind has a sink, if any, that has not seen a bit. -/
theorem bits_of_ofNames? {category subtype : String} {kind : Kind}
    (h : Kind.ofNames? category subtype = some kind) :
    ∀ s, kind = .sink s → s.bits = List.replicate s.kind.arity false := by
  rintro s rfl
  unfold Kind.ofNames? at h
  split at h
  · obtain ⟨_, _, h⟩ := Option.map_eq_some_iff.1 h
    cases h
  · split at h
    · obtain ⟨_, _, h⟩ := Option.map_eq_some_iff.1 h
      cases h
    · split at h
      · obtain ⟨_, _, h⟩ := Option.map_eq_some_iff.1 h
        obtain rfl := Kind.sink.inj h
        rfl
      · cases h

/-- The component of a record is new. -/
theorem isNew_component? {r : ComponentRecord} {x : Component} (h : r.component? = some x) :
    x.IsNew := by
  obtain ⟨kind, hkind, rfl⟩ := Option.map_eq_some_iff.1 h
  have hbits : ∀ s, kind.mapSource r.sourceState = .sink s →
      s.bits = List.replicate s.kind.arity false := by
    intro s hs
    cases kind with
    | sink s' => exact bits_of_ofNames? hkind s hs
    | gate g => cases hs
    | source s' => cases hs
  exact ⟨rfl, rfl, rfl, hbits⟩

theorem wellFormed_component? {r : ComponentRecord} {x : Component} (h : r.component? = some x) :
    x.WellFormed :=
  (isNew_component? h).wellFormed

/-- Adding the components of records is a run. -/
theorem run_addComponents {seen : List ComponentId} {records : List ComponentRecord}
    (h : addComponents seen records c = .ok d) : Run Assembles c d := by
  induction records generalizing seen c with
  | nil =>
      obtain rfl := Except.ok.inj h
      exact .refl
  | cons r records ih =>
      unfold addComponents at h
      split at h
      · cases h
      · split at h
        · cases h
        · rename_i hx
          exact (Run.addNew (isNew_component? hx)).trans (ih h)

/-- Replaying wires is a run. -/
theorem run_replayWires (wires : List WireRecord) (c : Circuit) :
    Run Assembles c (replayWires wires c).2 := by
  induction wires generalizing c with
  | nil => exact .refl
  | cons w wires ih =>
      have hrun : Run Assembles c
          (Edit.settled c (c.connectPorts w.source w.sourcePort w.target w.targetPort)) :=
        .single (.connectPorts w.source w.sourcePort w.target w.targetPort) ⟨rfl, trivial⟩
      unfold replayWires
      split
      case h_1 hd =>
        rw [hd] at hrun
        exact hrun.trans (ih _)
      case h_2 => exact ih c

/-- Forcing the wires of a document is a run. -/
theorem run_forceWires (wires : List WireRecord) (c : Circuit) :
    Run (fun _ => True) c (forceWires c wires) := by
  refine Run.foldl (fun c w => ?_) wires c
  split
  · exact .single (.force w.source w.target w.targetPort.index) trivial
  · exact .refl

end Document

namespace Netlist

theorem run_sourceOf (driver : Driver) (c : Circuit) : Run Assembles c (sourceOf driver c).2 := by
  cases driver with
  | input name => exact .refl
  | gate name => exact .refl
  | constant on =>
      unfold sourceOf
      dsimp only
      split
      · exact .refl
      · exact .addNew ((Component.isNew_source _ _).withId _)

theorem run_addInputs (n : Netlist) (c : Circuit) : Run Assembles c (n.addInputs c) :=
  Run.foldl (fun _ _ => .addNew (((Component.isNew_source _ _).withId _).withLabel _)) _ c

theorem run_addGates (n : Netlist) (c : Circuit) : Run Assembles c (n.addGates c) := by
  refine Run.foldl (fun c s => ?_) _ c
  dsimp only
  split
  · exact .addNew (((Component.isNew_gate _ _).withId _).withLabel _)
  · exact .refl

/-- Wiring a slot is a run. -/
theorem run_drive {n : Netlist} {name : String} {target : ComponentId} {slot : Nat}
    (h : n.drive name target slot c = .ok d) : Run Assembles c d := by
  obtain ⟨driver, _, h⟩ := ok_of_bind_ok h
  have hsource := run_sourceOf driver c
  split at h
  rename_i source c' heq
  rw [heq] at hsource
  split at h
  · cases h
  · rename_i hconnect
    obtain rfl := Except.ok.inj h
    exact hsource.trans (.join hconnect)

theorem run_driveAll {n : Netlist} {target : ComponentId} {names : List String} {slot : Nat}
    (h : n.driveAll target names slot c = .ok d) : Run Assembles c d := by
  induction names generalizing slot c with
  | nil =>
      obtain rfl := Except.ok.inj h
      exact .refl
  | cons name names ih =>
      obtain ⟨_, hdrive, hrest⟩ := ok_of_bind_ok h
      exact (run_drive hdrive).trans (ih hrest)

theorem run_driveGates {n : Netlist} {signals : List Signal}
    (h : n.driveGates signals c = .ok d) : Run Assembles c d := by
  induction signals generalizing c with
  | nil =>
      obtain rfl := Except.ok.inj h
      exact .refl
  | cons s signals ih =>
      unfold driveGates at h
      split at h
      · obtain ⟨_, hdrive, hrest⟩ := ok_of_bind_ok h
        exact (run_driveAll hdrive).trans (ih hrest)
      · exact ih h

/-- Adding a bulb and wiring it is a run. -/
theorem run_addOutput {n : Netlist} {name : String} {i : Nat}
    (h : n.addOutput name i c = .ok d) : Run Assembles c d := by
  obtain ⟨driver, _, h⟩ := ok_of_bind_ok h
  have hsource := run_sourceOf driver c
  split at h
  rename_i source c' heq
  rw [heq] at hsource
  dsimp only at h
  split at h
  · cases h
  · rename_i hconnect
    obtain rfl := Except.ok.inj h
    have hbulb := ((Component.isNew_sink .bulb
      ⟨columnAt (n.signals.length / 10 + 1), rowAt i⟩).withId (outputId name)).withLabel name
    exact (hsource.trans (.addNew hbulb)).trans (.join hconnect)

theorem run_addOutputs {n : Netlist} {names : List String} {i : Nat}
    (h : n.addOutputs names i c = .ok d) : Run Assembles c d := by
  induction names generalizing i c with
  | nil =>
      obtain rfl := Except.ok.inj h
      exact .refl
  | cons name names ih =>
      obtain ⟨_, hfirst, hrest⟩ := ok_of_bind_ok h
      exact (run_addOutput hfirst).trans (ih hrest)

/-- The circuit of a netlist could have been made by hand. -/
theorem run_toCircuit {n : Netlist} (h : n.toCircuit = .ok c) : Run Assembles .empty c := by
  obtain ⟨_, hgates, houtputs⟩ := ok_of_bind_ok h
  exact (((run_addInputs n .empty).trans (run_addGates n _)).trans (run_driveGates hgates)).trans
    (run_addOutputs houtputs)

end Netlist

namespace Synthesis

theorem run_connectAll {target : ComponentId} {operands : List ComponentId} {slot : Nat}
    (h : connectAll target operands slot c = .ok d) : Run Assembles c d := by
  induction operands generalizing slot c with
  | nil =>
      obtain rfl := Except.ok.inj h
      exact .refl
  | cons a operands ih =>
      unfold connectAll at h
      split at h
      case h_1 => cases h
      case h_2 hconnect => exact (Run.join hconnect).trans (ih h)

theorem run_addGate {g : Gate} {position : Point} {operands : List ComponentId} {id : ComponentId}
    (h : addGate g position operands c = .ok (id, d)) : Run Assembles c d := by
  unfold addGate at h
  obtain ⟨d', hd, hpair⟩ := ok_of_map_ok h
  obtain ⟨_, rfl⟩ := Prod.mk.inj hpair
  have hadd := Run.addNew (c := c) ((Component.isNew_gate g position).withId
    s!"gate-{c.components.size}")
  exact hadd.trans (run_connectAll hd)

theorem run_addConstant (on : Bool) (row : Float) (c : Circuit) :
    Run Assembles c (addConstant on row c) := by
  unfold addConstant
  split
  · exact .refl
  · exact .addNew ((Component.isNew_source _ _).withId _)

/-- Adding what computes an expression is a run. -/
theorem run_build {e : Expr} {row : Float} {id : ComponentId} {level : Nat}
    (h : build e row c = .ok (id, level, d)) : Run Assembles c d := by
  induction e generalizing row c id level d with
  | var name =>
      obtain ⟨_, _, rfl⟩ := by simpa [build] using h
      exact .refl
  | const on =>
      obtain ⟨_, _, rfl⟩ := by simpa [build] using h
      exact run_addConstant on row c
  | not a ih =>
      obtain ⟨⟨a, levelA, c₁⟩, ha, h⟩ := ok_of_bind_ok h
      obtain ⟨⟨gate, c₂⟩, hgate, h⟩ := ok_of_bind_ok h
      obtain ⟨_, _, rfl⟩ := by simpa using h
      exact (ih ha).trans (run_addGate hgate)
  | binary op a b iha ihb =>
      obtain ⟨⟨a, levelA, c₁⟩, ha, h⟩ := ok_of_bind_ok h
      obtain ⟨⟨b, levelB, c₂⟩, hb, h⟩ := ok_of_bind_ok h
      obtain ⟨⟨gate, c₃⟩, hgate, h⟩ := ok_of_bind_ok h
      obtain ⟨_, _, rfl⟩ := by simpa using h
      exact ((iha ha).trans (ihb hb)).trans (run_addGate hgate)

theorem run_switches (names : List String) : Run Assembles .empty (switches names) :=
  Run.foldl (fun _ _ => .addNew (((Component.isNew_source _ _).withId _).withLabel _)) _ _

end Synthesis

/-- The circuits that the loaders return. -/
inductive Loaded : Circuit → Prop where
  /-- From a document, which may be loaded strictly. -/
  | document {d : Document} {strict : Bool} {report : LoadReport} {c : Circuit} :
      d.toCircuit strict = .ok (report, c) → Loaded c
  /-- From the bytes of a netlist. -/
  | netlist {text : List UInt8} {c : Circuit} : Circuit.ofNetlist text = .ok c → Loaded c
  /-- From an expression. -/
  | expr {e : Expr} {c : Circuit} : Circuit.ofExpr e = .ok c → Loaded c

/-- A loaded circuit could have been made by hand, of new components and without forcing a wire.
-/
theorem Loaded.assembled (h : Loaded c) : Run Assembles .empty c := by
  cases h with
  | @document d strict report c h =>
      unfold Document.toCircuit at h
      split at h
      case h_1 => cases h
      case h_2 base hbase =>
        -- strict loading looks for a cycle in another circuit and returns the same one
        split at h
        · cases h
        · obtain rfl := congrArg Prod.snd (Except.ok.inj h)
          exact (Document.run_addComponents hbase).trans (Document.run_replayWires d.wires base)
  | netlist h =>
      obtain ⟨_, _, h⟩ := ok_of_bind_ok h
      obtain ⟨_, _, h⟩ := ok_of_bind_ok h
      exact Netlist.run_toCircuit h
  | @expr e c h =>
      obtain ⟨⟨root, level, base⟩, hbase, h⟩ := ok_of_bind_ok h
      obtain ⟨⟨k, d⟩, hconnect, h⟩ := ok_of_bind_ok h
      obtain rfl := Except.ok.inj h
      have hbulb := ((Component.isNew_sink .bulb
        ((Synthesis.positionOf base root).shifted Synthesis.columnSpacing 0)).withId
          Synthesis.outputName).withLabel "Output"
      exact (((Synthesis.run_switches e.variableNames).trans (Synthesis.run_build hbase)).trans
        (.addNew hbulb)).trans (.join hconnect)

theorem Loaded.run (h : Loaded c) : Run Unforced .empty c := h.assembled.unforced

/-- The circuits that allowed edits lead to, from a new or a loaded circuit. -/
inductive Arises (allowed : Edit → Prop) : Circuit → Prop where
  | new {c : Circuit} : Run allowed .empty c → Arises allowed c
  | loaded {c d : Circuit} : Loaded c → Run allowed c d → Arises allowed d

/-- A circuit that any sequence of operations leads to. -/
abbrev Circuit.Reachable (c : Circuit) : Prop := Arises (fun _ => True) c

/-- Where no edit but a forced wire is ruled out, every circuit arises from the empty one. -/
theorem Arises.run {allowed : Edit → Prop} (hallowed : ∀ e, Unforced e → allowed e)
    (h : Arises allowed c) : Run allowed .empty c := by
  cases h with
  | new h => exact h
  | loaded hload hrun => exact (hload.run.mono hallowed).trans hrun

/-- A reachable circuit is well wired. -/
theorem Circuit.Reachable.wellWired (h : c.Reachable) : c.WellWired :=
  (Arises.run (fun _ _ => trivial) h).wellWired .empty

/-- A list of edits of the empty circuit makes a reachable one. -/
theorem reachable_applyAll (edits : List Edit) : (Edit.applyAll edits .empty).Reachable :=
  .new (.applyAll (fun _ _ => trivial) _)

/-- The two records of the wires of a reachable circuit agree. Names are those of the records that
they look up and components have the shape of their kind; the wires correspond one to one to the
slots that are not empty; each wire leads from an output to the slot of another component that
names it, and each name on a slot is that of a wire to this very slot. So the circuit passes its
own check. -/
theorem two_records_agree (h : c.Reachable) :
    (∀ id x, c.component? id = some x → x.id = id) ∧
    (∀ k w, c.wire? k = some w → w.id = k) ∧
    (∀ id x, c.component? id = some x → x.slots.length = x.kind.arity) ∧
    Set.BijOn (fun w : Wire => (w.target, w.slot)) c.wireSet c.wiredSlots ∧
    (∀ k w, c.wire? k = some w → ∃ s t,
      c.component? w.source = some s ∧ c.component? w.target = some t ∧ w.source ≠ w.target ∧
        s.kind.isSink = false ∧ w.slot < t.kind.arity ∧ t.slots[w.slot]? = some (some k)) ∧
    (∀ id x i k, c.component? id = some x → x.slots[i]? = some (some k) →
      ∃ w, c.wire? k = some w ∧ w.target = id ∧ w.slot = i) ∧
    c.Consistent := by
  have hwired := h.wellWired
  refine ⟨fun id x hx => Roster.name_of_get? hx, fun k w hw => Roster.name_of_get? hw,
    fun id x hx => (hwired.formed hx).slots, hwired.bijOn, ?_, fun id x i k => hwired.slot,
    hwired.consistent⟩
  intro k w hw
  obtain ⟨s, hs, hout⟩ := hwired.source hw
  obtain ⟨t, ht, hslot⟩ := hwired.target hw
  have hlt := (List.getElem?_eq_some_iff.1 hslot).1
  rw [(hwired.formed ht).slots] at hlt
  exact ⟨s, t, hs, ht, hwired.distinct hw, by simpa using hout, hlt, hslot⟩

/-- A latch of two NOR gates beside a display, made with detours: a gate takes the place of
another, a wire gives way to a new one, a copy comes and goes, and the wire that closes the loop
is forced. -/
def latch : Circuit :=
  Edit.applyAll
    [.add ((Component.source .switch .origin).withId "set") (by decide),
      .add ((Component.source .switch .origin).withId "reset") (by decide),
      .add ((Component.gate .not .origin).withId "p") (by decide),
      .add ((Component.gate .nor .origin).withId "q") (by decide),
      .connect "set" "p" 0,
      .add ((Component.gate .nor .origin).withId "p") (by decide),
      .connect "set" "p" 0, .connect "p" "q" 1, .connect "reset" "q" 0, .force "q" "p" 1,
      .copy "q" "r", .connect "r" "p" 0, .connect "set" "p" 0, .remove "r",
      .add ((Component.gate .and .origin).withId "both") (by decide),
      .connect "reset" "both" 0, .connect "set" "both" 0, .connect "set" "both" 1,
      .add ((Component.sink .display .origin).withId "digit") (by decide),
      .connect "both" "digit" 0, .connect "set" "digit" 2, .setSwitch "set" true]
    .empty

/-- The records of the latch agree, and there are eight wires. -/
theorem two_records_agree_latch : latch.Reachable ∧ latch.wires.size = 8 ∧ latch.Consistent :=
  ⟨reachable_applyAll _, by decide +kernel,
    (two_records_agree (reachable_applyAll _ : latch.Reachable)).2.2.2.2.2.2⟩

end LogicCircuit
