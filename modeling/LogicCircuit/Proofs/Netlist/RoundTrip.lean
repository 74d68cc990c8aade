import LogicCircuit.Netlist.Circuit
import LogicCircuit.Proofs.Netlist.Meaning
import LogicCircuit.Proofs.Simulation.Mirrors

/-!
# Circuits as netlists and back

What is read from the text of a circuit has a copy of each source that varies and of each gate,
and constants where they are read (`Netlist.Copies`). Copies respond alike and are driven alike,
where an empty slot is copied by the constant false, so whatever the levels of the sources are,
each bulb shows what is on the slot that it was written for: `netlist_round_trip`. This holds only
if no name in the text is one that stands for a constant; a switch that is called `gnd` drives
every empty slot (`captured_ground`).
-/

namespace LogicCircuit

/-- Every constant is at the level that it is named for. -/
def Circuit.ConstantsAtLevel (c : Circuit) : Prop :=
  ∀ x ∈ c.sources, ∀ s ∈ x.kind.source?,
    (s.kind = .high → s.level = true) ∧ (s.kind = .low → s.level = false)

instance (c : Circuit) : Decidable c.ConstantsAtLevel := by
  unfold Circuit.ConstantsAtLevel
  infer_instance

/-- A key that is listed once is looked up. -/
theorem lookup_map_of_mem {α : Type} {key : α → String} {level : α → Bool} {xs : List α} {x : α}
    (hkeys : (xs.map key).Nodup) (hx : x ∈ xs) :
    (xs.map fun y => (key y, level y)).lookup (key x) = some (level x) := by
  induction xs with
  | nil => cases hx
  | cons y xs ih =>
      obtain ⟨hfirst, hkeys⟩ := List.nodup_cons.1 hkeys
      rcases List.mem_cons.1 hx with rfl | hx
      · simp
      · have hne : key x ≠ key y := fun h => hfirst (h ▸ List.mem_map_of_mem hx)
        rw [List.map_cons, List.lookup_cons, beq_false_of_ne hne]
        exact ih hkeys hx

/-- A key that is not listed is not looked up. -/
theorem lookup_map_of_not_mem {α : Type} {key : α → String} {level : α → Bool} {xs : List α}
    {a : String} (ha : a ∉ xs.map key) : (xs.map fun y => (key y, level y)).lookup a = none := by
  refine List.lookup_eq_none_iff.2 fun p hp => ?_
  obtain ⟨y, hy, rfl⟩ := List.mem_map.1 hp
  have hne : a ≠ key y := fun h => ha (h ▸ List.mem_map_of_mem hy)
  simpa using hne

namespace Circuit

variable {c : Circuit} {id : ComponentId} {x : Component}

/-- What is no source is as it was at other levels. -/
theorem component?_withLevels_of_source? (hx : c.component? id = some x)
    (hsource : x.kind.source? = none) (levels : List (ComponentId × Bool)) :
    (c.withLevels levels).component? id = some x := by
  rw [component?_withLevels, hx, Option.map_some]
  cases levels.lookup id with
  | none => rfl
  | some on => exact congrArg some (x.atLevel_of_source? hsource on)

/-- Other levels make no cycles. -/
theorem WellWired.acyclicCone_withLevels (h : c.WellWired) (hacyclic : c.readerGraph.Acyclic)
    (levels : List (ComponentId × Bool)) (id : ComponentId) :
    (c.withLevels levels).AcyclicCone id := by
  have hframe := c.frame_withLevels levels
  exact (h.of_frame hframe).acyclicCone (by rwa [readerGraph_of_frame hframe]) id

end Circuit

namespace Netlist

open Circuit (mem_gates_iff mem_sources_iff)

/-- The levels of the sources that vary. -/
def levels (c : Circuit) (value : ComponentId → Bool) : List (ComponentId × Bool) :=
  (c.sources.filter varies).map fun x => (x.id, value x.id)

/-- The levels of the switches that are read for these sources. -/
def switchLevels (c : Circuit) (value : ComponentId → Bool) : List (ComponentId × Bool) :=
  (c.sources.filter varies).map fun x => (inputId (signalOf x), value x.id)

/-- A part stands for a source or a gate. -/
def Copies (c d : Circuit) (a b : ComponentId) : Prop :=
  ∃ x, c.component? a = some x ∧ ¬ x.kind.isSink ∧ b = (partOf (driverOf x)).id ∧
    Has d (partOf (driverOf x))

variable {c d : Circuit} {x : Component} {a id : ComponentId}
  {driver : Option ComponentId} {k : Kind}

theorem nodup_levels (c : Circuit) : ((c.sources.filter varies).map (·.id)).Nodup := by
  have hsub : (c.sources.filter varies).Sublist c.components.entries :=
    List.filter_sublist.trans List.filter_sublist
  exact (hsub.map _).nodup (Circuit.nodup_ids c)

theorem nodup_switchLevels (hn : (ofCircuit c).driven.Nodup) :
    ((c.sources.filter varies).map fun x => inputId (signalOf x)).Nodup := by
  have hinjective : Function.Injective inputId := fun s t h => by
    have hid : (Part.input s).id = (Part.input t).id := h
    exact Part.input.inj (Part.id_injective hid)
  have hinputs : ((c.sources.filter varies).map signalOf).Nodup := (List.nodup_append.1 hn).1
  have hmap := hinputs.map hinjective
  rwa [List.map_map] at hmap

/-- A copy is a gate of the same function, or a source that is at the same level if it is a
constant. -/
theorem kind_of_copy (hn : (ofCircuit c).driven.Nodup) (hheld : c.ConstantsAtLevel)
    (hx : c.component? id = some x) (hsink : ¬ x.kind.isSink)
    (hk : (ofCircuit c).PartKind (partOf (driverOf x)) k) :
    (∃ g, x.kind = .gate g ∧ k = .gate g) ∨
      ∃ s t, x.kind = .source s ∧ k = .source t ∧ (varies x = false → t.level = s.level) := by
  have hid : x.id = id := Roster.name_of_get? hx
  rw [← hid] at hx
  cases hkind : x.kind with
  | sink s => exact absurd (by rw [hkind]; rfl) hsink
  | gate g =>
      have hgate : x ∈ c.gates := mem_gates_iff.2 ⟨hx, g, hkind⟩
      rw [driverOf, hkind] at hk
      obtain ⟨s, hs, hname, g', hg', rfl⟩ := hk
      have hsignal : componentSignal c x ∈ (ofCircuit c).signals :=
        mem_signals_iff.2 (.inl ⟨x, List.mem_append_right _ hgate, rfl⟩)
      obtain rfl := signal_unique hn hsignal hs hname
      have hop : x.kind.operation = .gate g' := hg'
      rw [hkind] at hop
      exact .inl ⟨g, rfl, congrArg _ (Operation.gate.inj hop).symm⟩
  | source s =>
      have hconstant := hheld x (mem_sources_iff.2 ⟨hx, s, hkind⟩) s (by rw [hkind]; rfl)
      obtain ⟨kind, level⟩ := s
      rw [driverOf, hkind] at hk
      cases kind with
      | high =>
          obtain rfl : k = _ := hk
          exact .inr ⟨_, _, rfl, rfl, fun _ => (hconstant.1 rfl).symm⟩
      | low =>
          obtain rfl : k = _ := hk
          exact .inr ⟨_, _, rfl, rfl, fun _ => (hconstant.2 rfl).symm⟩
      | switch | button | clock timing =>
          obtain ⟨-, rfl⟩ := hk
          refine .inr ⟨_, _, rfl, rfl, fun hvaries => ?_⟩
          simp [varies, hkind, Kind.source?, SourceKind.isConstant] at hvaries

/-- A source that varies is set to its value, a constant stays as it is. -/
theorem level?_withLevels_source (hx : c.component? id = some x) {s : Source}
    (hk : x.kind = .source s) (value : ComponentId → Bool) :
    (c.withLevels (levels c value)).level? id =
      some (if varies x then value id else s.level) := by
  have hid : x.id = id := Roster.name_of_get? hx
  have hlevel : c.level? id = some s.level := by
    rw [Circuit.level?, hx, Option.bind_some, hk]
    rfl
  rw [Circuit.level?_withLevels, hlevel, Option.map_some]
  congr 1
  split
  case isTrue hvaries =>
    have hmem : x ∈ c.sources.filter varies :=
      List.mem_filter.2 ⟨mem_sources_iff.2 ⟨hid ▸ hx, s, hk⟩, hvaries⟩
    rw [levels, ← hid, lookup_map_of_mem (nodup_levels c) hmem]
    rfl
  case isFalse hvaries =>
    have hnone : id ∉ (c.sources.filter varies).map (·.id) := by
      intro hmem
      obtain ⟨y, hy, rfl⟩ := List.mem_map.1 hmem
      obtain ⟨hsource, hy⟩ := List.mem_filter.1 hy
      obtain rfl := Option.some.inj (hx.symm.trans (mem_sources_iff.1 hsource).1)
      exact hvaries hy
    rw [levels, lookup_map_of_not_mem hnone]
    rfl

theorem lookup_switchLevels_constant (c : Circuit) (value : ComponentId → Bool) (on : Bool) :
    (switchLevels c value).lookup (constantId on) = none := by
  refine lookup_map_of_not_mem fun hmem => ?_
  obtain ⟨y, -, hy⟩ := List.mem_map.1 hmem
  have hpart : Part.input (signalOf y) = .constant on := Part.id_injective hy
  cases hpart

/-- The switch of a source that varies is set to its value, a constant stays as it is. -/
theorem level?_withLevels_copy (hn : (ofCircuit c).driven.Nodup) (hx : c.component? id = some x)
    {s t : Source} (hk : x.kind = .source s) {y : Component}
    (hy : d.component? (partOf (driverOf x)).id = some y) (hky : y.kind = .source t)
    (value : ComponentId → Bool) :
    (d.withLevels (switchLevels c value)).level? (partOf (driverOf x)).id =
      some (if varies x then value id else t.level) := by
  have hid : x.id = id := Roster.name_of_get? hx
  have hlevel : d.level? (partOf (driverOf x)).id = some t.level := by
    rw [Circuit.level?, hy, Option.bind_some, hky]
    rfl
  rw [Circuit.level?_withLevels, hlevel, Option.map_some]
  congr 1
  split
  case isTrue hvaries =>
    have hmem : x ∈ c.sources.filter varies :=
      List.mem_filter.2 ⟨mem_sources_iff.2 ⟨hid ▸ hx, s, hk⟩, hvaries⟩
    have hlook : (switchLevels c value).lookup (inputId (signalOf x)) = some (value x.id) :=
      lookup_map_of_mem (nodup_switchLevels hn) hmem
    rw [driverOf_of_varies hk hvaries]
    show (List.lookup (inputId (signalOf x)) _).getD _ = _
    rw [hlook, hid]
    rfl
  case isFalse hvaries =>
    obtain ⟨on, hconstant⟩ : ∃ on, driverOf x = .constant on := by
      obtain ⟨kind, level⟩ := s
      unfold driverOf
      rw [hk]
      cases kind <;> simp [varies, hk, Kind.source?, SourceKind.isConstant] at hvaries ⊢
    rw [hconstant]
    show (List.lookup (constantId on) _).getD _ = _
    rw [lookup_switchLevels_constant]
    rfl

/-! ## Copies mirror their originals -/

/-- What drives a slot of a copy is the copy of a driver, or the constant false. -/
theorem copies_or_none (hwired : c.WellWired) (hdriver : driver ∈ c.driversOf a)
    (hhas : Has d (partOf (slotDriver c driver))) :
    (∃ a', driver = some a' ∧ Copies c d a' (partOf (slotDriver c driver)).id) ∨
      driver = none ∧ slotDriver c driver = .constant false := by
  cases driver with
  | none => exact .inr ⟨rfl, rfl⟩
  | some a' =>
      obtain ⟨y, hy, hsink⟩ :=
        hwired.component?_driver (Circuit.mem_next_of_mem_driversOf hdriver)
      have hslot : slotDriver c (some a') = driverOf y := by
        simp only [slotDriver, Option.bind_some, hy, Option.map_some, Option.getD_some]
      rw [hslot] at hhas ⊢
      exact .inl ⟨a', rfl, y, hy, hsink, rfl, hhas⟩

variable (hwired : c.WellWired) (hacyclic : c.readerGraph.Acyclic) (hheld : c.ConstantsAtLevel)
  (hlegible : Legible c) (hn : (ofCircuit c).driven.Nodup) (hd : (ofCircuit c).Realizes d)

include hwired hlegible hn hd in
/-- The slots of the copy of a gate are driven by copies of what drives the slots of the gate. -/
theorem driver_copy_of_gate (hx : x ∈ c.gates) {i : Nat}
    (hdriver : (c.driversOf x.id)[i]? = some driver) :
    (d.driversOf (gateId (signalOf x)))[i]? = some (some (partOf (slotDriver c driver)).id) := by
  obtain ⟨-, g, hk⟩ := mem_gates_iff.1 hx
  have hsignal : componentSignal c x ∈ (ofCircuit c).signals :=
    mem_signals_iff.2 (.inl ⟨x, List.mem_append_right _ hx, rfl⟩)
  have harg : (componentSignal c x).args[i]? = some (driverSignal c driver) := by
    show ((c.driversOf x.id).map (driverSignal c))[i]? = _
    rw [List.getElem?_map, hdriver]
    rfl
  exact hd.driver_gate hn hsignal ⟨g, by show x.kind.operation = _; rw [hk]; rfl⟩ harg
    (resolve_driverSignal hwired hn hlegible (List.mem_of_getElem? hdriver))

include hwired hacyclic hlegible hn hd in
/-- The constant false reads as an empty slot does. -/
theorem read_constant (hhas : Has d (.constant false)) (value : ComponentId → Bool) :
    (d.withLevels (switchLevels c value)).read (some (constantId false)) = false := by
  have hbuildable := buildable_ofCircuit hwired hacyclic hn hlegible
  obtain ⟨y, hy, hk⟩ := hd.exists_component hhas
  have hcone := hd.wired.acyclicCone_withLevels (hd.acyclic hbuildable) (switchLevels c value)
    (constantId false)
  refine Circuit.denote_of_level? hcone ?_
  have hk : y.kind = .source (.ofKind .low) := hk
  have hlevel : d.level? (constantId false) = some false := by
    rw [Circuit.level?, show d.component? (constantId false) = some y from hy,
      Option.bind_some, hk]
    rfl
  rw [Circuit.level?_withLevels, hlevel, lookup_switchLevels_constant]
  rfl

include hheld hn hd in
/-- A copy responds as its original does, at whatever levels. -/
theorem respond_of_copy (h : Copies c d a id) (value : ComponentId → Bool) :
    ∃ x y, (c.withLevels (levels c value)).component? a = some x ∧
      (d.withLevels (switchLevels c value)).component? id = some y ∧
      y.kind.respond = x.kind.respond := by
  obtain ⟨x, hx, hsink, rfl, hhas⟩ := h
  obtain ⟨y, hy, hpart⟩ := hd.exists_component hhas
  rcases kind_of_copy hn hheld hx hsink hpart with ⟨g, hk, hky⟩ | ⟨s, t, hk, hky, hsame⟩
  · exact ⟨x, y, Circuit.component?_withLevels_of_source? hx (by rw [hk]; rfl) _,
      Circuit.component?_withLevels_of_source? hy (by rw [hky]; rfl) _, by rw [hk, hky]⟩
  · obtain ⟨x', hx', hlevel⟩ := Option.bind_eq_some_iff.1 (level?_withLevels_source hx hk value)
    obtain ⟨y', hy', hlevel'⟩ :=
      Option.bind_eq_some_iff.1 (level?_withLevels_copy hn hx hk hy hky value)
    refine ⟨x', y', hx', hy', funext fun bits => ?_⟩
    rw [Kind.respond_of_level? hlevel, Kind.respond_of_level? hlevel']
    split
    · rfl
    · exact hsame (by simpa using ‹¬ varies x = true›)

include hwired hheld hn hd in
/-- A copy has as many slots as its original. -/
theorem length_driversOf_of_copy (h : Copies c d a id) :
    (d.driversOf id).length = (c.driversOf a).length := by
  obtain ⟨x, hx, hsink, rfl, hhas⟩ := h
  obtain ⟨y, hy, hpart⟩ := hd.exists_component hhas
  rw [hwired.length_driversOf hx, hd.wired.length_driversOf hy]
  rcases kind_of_copy hn hheld hx hsink hpart with ⟨g, hk, hky⟩ | ⟨s, t, hk, hky, -⟩
  · rw [hk, hky]
  · rw [hk, hky]
    rfl

include hwired hlegible hn hd in
/-- A slot of a copy is driven by the part that stands for the driver of the slot. -/
theorem driver_of_copy (h : Copies c d a id) {i : Nat}
    (hdriver : (c.driversOf a)[i]? = some driver) :
    (d.driversOf id)[i]? = some (some (partOf (slotDriver c driver)).id) := by
  obtain ⟨x, hx, hsink, rfl, -⟩ := h
  obtain rfl : x.id = a := Roster.name_of_get? hx
  have hlt := (List.getElem?_eq_some_iff.1 hdriver).1
  rw [hwired.length_driversOf hx] at hlt
  cases hk : x.kind with
  | sink s => exact absurd (by rw [hk]; rfl) hsink
  | source s => rw [hk] at hlt; cases hlt
  | gate g =>
      have hgate : driverOf x = .gate (signalOf x) := by rw [driverOf, hk]
      rw [hgate]
      exact driver_copy_of_gate hwired hlegible hn hd (mem_gates_iff.2 ⟨hx, g, hk⟩) hdriver

include hwired hacyclic hheld hlegible hn hd in
/-- What is read from the text of a circuit mirrors it, at whatever levels. -/
theorem mirrors_copies (value : ComponentId → Bool) :
    Circuit.Mirrors (c.withLevels (levels c value)) (d.withLevels (switchLevels c value))
      (Copies c d) := by
  have hdrivers := Circuit.driversOf_of_frame (c.frame_withLevels (levels c value))
  have hdrivers' := Circuit.driversOf_of_frame (d.frame_withLevels (switchLevels c value))
  refine ⟨fun h => respond_of_copy hheld hn hd h value, fun h => ?_, fun h i o p ho hp => ?_⟩
  · rw [hdrivers, hdrivers']
    exact length_driversOf_of_copy hwired hheld hn hd h
  · rw [hdrivers] at ho
    rw [hdrivers'] at hp
    have hcopy := driver_of_copy hwired hlegible hn hd h ho
    obtain rfl := Option.some.inj (hp.symm.trans hcopy)
    have hhas := hd.has_of_driver (List.mem_of_getElem? hcopy)
    rcases copies_or_none hwired (List.mem_of_getElem? ho) hhas with
      ⟨a', rfl, hcopies⟩ | ⟨rfl, hconstant⟩
    · exact .inl ⟨a', _, rfl, rfl, hcopies⟩
    · rw [hconstant] at hhas ⊢
      exact .inr (read_constant hwired hacyclic hlegible hn hd hhas value)

/-! ## Outputs -/

/-- The output of a slot is named after the sink, and stands for what drives the slot. -/
theorem driver_of_output (hx : x ∈ c.sinks) {slot : Nat} {o : String × String}
    (ho : (outputsOf c x)[slot]? = some o) : o ∈ allOutputs c ∧
      ∃ driver, (c.driversOf x.id)[slot]? = some driver ∧ o.2 = driverSignal c driver := by
  refine ⟨List.mem_flatMap.2 ⟨x, hx, List.mem_of_getElem? ho⟩, ?_⟩
  rw [outputsOf, List.getElem?_map, Option.map_eq_some_iff] at ho
  obtain ⟨⟨driver, i⟩, hdriver, rfl⟩ := ho
  rw [List.getElem?_zipIdx, Option.map_eq_some_iff] at hdriver
  obtain ⟨driver', hdriver, heq⟩ := hdriver
  obtain ⟨rfl, -⟩ := Prod.mk.inj heq
  exact ⟨_, hdriver, rfl⟩

include hwired hacyclic hheld hlegible hn hd in
/-- What drives a bulb has the value on the slot that the bulb was written for. -/
theorem denote_slotDriver (hdriver : driver ∈ c.driversOf a)
    (hhas : Has d (partOf (slotDriver c driver))) (value : ComponentId → Bool) :
    (d.withLevels (switchLevels c value)).denote (partOf (slotDriver c driver)).id =
      (c.withLevels (levels c value)).read driver := by
  have hdacyclic := hd.acyclic (buildable_ofCircuit hwired hacyclic hn hlegible)
  rcases copies_or_none hwired hdriver hhas with ⟨a', rfl, hcopies⟩ | ⟨rfl, hconstant⟩
  · have hmirrors := mirrors_copies hwired hacyclic hheld hlegible hn hd value
    exact hmirrors.denote (hwired.of_frame (c.frame_withLevels _))
      (hd.wired.acyclicCone_withLevels hdacyclic _) (hwired.acyclicCone_withLevels hacyclic _ a')
      hcopies
  · rw [hconstant] at hhas ⊢
    exact read_constant hwired hacyclic hlegible hn hd hhas value

include hwired hacyclic in
/-- A pass leaves on a slot what its driver reads. -/
theorem inputValues_of_driver {slot : Nat} (hdriver : (c.driversOf a)[slot]? = some driver)
    (value : ComponentId → Bool) :
    ((Simulator.new.evaluate (c.withLevels (levels c value))).2.2.inputValues a)[slot]? =
      some ((c.withLevels (levels c value)).read driver) := by
  have hframe := c.frame_withLevels (levels c value)
  rw [(hwired.of_frame hframe).inputValues_evaluate (Simulator.belongsTo_new _)
    (hwired.acyclicCone_withLevels hacyclic _), Circuit.denotedInputs, List.getElem?_map,
    Circuit.driversOf_of_frame hframe, hdriver]
  rfl

include hd in
/-- After a pass a bulb shows what drives it. -/
theorem value_of_driver (hbuildable : (ofCircuit c).Buildable) {name : String}
    (hname : name ∈ (ofCircuit c).outputs) {id : ComponentId}
    (hdriver : (d.driversOf (outputId name))[0]? = some (some id)) (value : ComponentId → Bool) :
    ((Simulator.new.evaluate (d.withLevels (switchLevels c value))).2.2.component?
      (outputId name)).map (·.value) =
        some (.bit ((d.withLevels (switchLevels c value)).denote id)) := by
  have hframe := d.frame_withLevels (switchLevels c value)
  obtain ⟨y, hy, -, hk⟩ := hd.exists_component (hd.output name hname)
  have hy' := Circuit.component?_withLevels_of_source? hy (by rw [hk]; rfl) (switchLevels c value)
  have hcone := hd.wired.acyclicCone_withLevels (hd.acyclic hbuildable) (switchLevels c value)
    (outputId name)
  have hfirst :
      ((d.withLevels (switchLevels c value)).denotedInputs (outputId name)).headD false =
        (d.withLevels (switchLevels c value)).denote id := by
    rw [List.headD_eq_head?_getD, List.head?_eq_getElem?, Circuit.denotedInputs,
      List.getElem?_map, Circuit.driversOf_of_frame hframe, hdriver]
    rfl
  refine
    ((hd.wired.of_frame hframe).value_evaluate (Simulator.belongsTo_new _) hy' hcone).trans ?_
  rw [hk, ← hfirst]
  rfl

include hwired hacyclic hheld hlegible hn hd in
/-- After a pass each bulb shows what a pass leaves on the slot that the bulb was written for. -/
theorem value_bulb (hx : x ∈ c.sinks) {slot : Nat} {o : String × String}
    (ho : (outputsOf c x)[slot]? = some o) (value : ComponentId → Bool) :
    ∃ on, ((Simulator.new.evaluate (c.withLevels (levels c value))).2.2.inputValues x.id)[slot]? =
        some on ∧
      ((Simulator.new.evaluate (d.withLevels (switchLevels c value))).2.2.component?
        (outputId o.1)).map (·.value) = some (.bit on) := by
  obtain ⟨hmem, driver, hdriver, hsignal⟩ := driver_of_output hx ho
  have hmemDriver := List.mem_of_getElem? hdriver
  have hbuildable := buildable_ofCircuit hwired hacyclic hn hlegible
  have hname : o.1 ∈ (ofCircuit c).outputs := List.mem_map_of_mem hmem
  have hbulb := hd.driver_output hn hname
    (resolve_output hwired hn hlegible hmem hmemDriver hsignal)
  have hhas := hd.has_of_driver (List.mem_of_getElem? hbulb)
  refine ⟨_, inputValues_of_driver hwired hacyclic hdriver value, ?_⟩
  rw [← denote_slotDriver hwired hacyclic hheld hlegible hn hd hmemDriver hhas value]
  exact value_of_driver hd hbuildable hname hbulb value

end Netlist

/-- The text of a circuit without cycles is read as a circuit with the same function, if constants
are at the levels that they are named for and no name in the text is empty or stands for a
constant. There is a switch for each source that varies; whatever levels these are set to, after
one pass each bulb shows what one pass leaves on the slot of the sink that the bulb was written
for. -/
theorem netlist_round_trip {c : Circuit} (h : c.Reachable) (hacyclic : c.readerGraph.Acyclic)
    (hheld : c.ConstantsAtLevel) (hlegible : Netlist.Legible c) {text : String}
    (htext : c.toNetlist = .ok text) :
    ∃ d, Circuit.ofNetlist text.toUTF8.toList = .ok d ∧
      (∀ x ∈ c.sources.filter Netlist.varies, ∃ y,
        d.component? (Netlist.inputId (Netlist.signalOf x)) = some y ∧
          y.kind = .source (.ofKind .switch)) ∧
      ∀ value : ComponentId → Bool, ∀ x ∈ c.sinks, ∀ (slot : Nat) (o : String × String),
        (Netlist.outputsOf c x)[slot]? = some o → ∃ on,
          ((Simulator.new.evaluate (c.setLevels (Netlist.levels c value))).2.2.inputValues
            x.id)[slot]? = some on ∧
          ((Simulator.new.evaluate (d.setLevels (Netlist.switchLevels c value))).2.2.component?
            (Netlist.outputId o.1)).map (·.value) = some (.bit on) := by
  have hwired := h.wellWired
  have hn := Netlist.nodup_driven hlegible htext
  have hread := Netlist.read_toNetlist hwired hlegible htext
  obtain ⟨d, hbuilt, hd⟩ :=
    Netlist.exists_realizes (Netlist.buildable_ofCircuit hwired hacyclic hn hlegible)
  refine ⟨d, ?_, fun x hx => ?_, fun value x hx slot o ho => ?_⟩
  · obtain ⟨t, ht, hnetlist⟩ := ok_of_bind_ok hread
    rw [Circuit.ofNetlist, ht]
    show (Netlist.ofText t >>= Netlist.toCircuit) = _
    rw [hnetlist]
    exact hbuilt
  · obtain ⟨y, hy, -, hk⟩ := hd.exists_component
      (hd.input (Netlist.signalOf x) (List.mem_map_of_mem hx))
    exact ⟨y, hy, hk⟩
  · have hlevels : ((Netlist.levels c value).map (·.1)).Nodup := by
      rw [Netlist.levels, List.map_map]
      exact Netlist.nodup_levels c
    have hswitches : ((Netlist.switchLevels c value).map (·.1)).Nodup := by
      rw [Netlist.switchLevels, List.map_map]
      exact Netlist.nodup_switchLevels hn
    rw [Circuit.setLevels_eq_withLevels hlevels, Circuit.setLevels_eq_withLevels hswitches]
    exact Netlist.value_bulb hwired hacyclic hheld hlegible hn hd hx ho value

/-- Two gates behind a switch and a constant, and a display with an empty slot. The labels of the
switch, of the other constant and of the display become names of signals. -/
def patchBoard : Circuit :=
  Edit.applyAll
    [.add ((Component.source .switch .origin).withId "key") (by decide),
      .add ((Component.source .high .origin).withId "tie") (by decide),
      .add ((Component.source .low .origin).withId "zero") (by decide),
      .add ((Component.gate .nand .origin).withId "g") (by decide),
      .add ((Component.gate .nor .origin).withId "n") (by decide),
      .add ((Component.sink .display .origin).withId "d") (by decide),
      .setLabel "key" (some "A in"), .setLabel "zero" (some "Z"), .setLabel "d" (some "Out"),
      .connect "key" "g" 0, .connect "tie" "g" 1, .connect "g" "n" 0, .connect "n" "d" 0,
      .connect "zero" "d" 2]
    .empty

/-- With the switch of the board on, the first output of its display is on, here and there. -/
theorem netlist_round_trip_patchBoard : patchBoard.Reachable ∧ patchBoard.readerGraph.Acyclic ∧
    patchBoard.ConstantsAtLevel ∧ Netlist.Legible patchBoard ∧ ∃ text d,
      patchBoard.toNetlist = .ok text ∧ Circuit.ofNetlist text.toUTF8.toList = .ok d ∧
      ((Simulator.new.evaluate (d.setLevels [("input-A_in", true)])).2.2.component?
        "output-Out_0").map (·.value) = some (.bit true) := by
  have hreach : patchBoard.Reachable := reachable_applyAll _
  have hacyclic : patchBoard.readerGraph.Acyclic :=
    hreach.wellWired.hasCycle_eq_false_iff.1 (by decide +kernel)
  have hheld : patchBoard.ConstantsAtLevel := by decide +kernel
  have hlegible : Netlist.Legible patchBoard := by decide +kernel
  obtain ⟨text, htext⟩ : ∃ text, patchBoard.toNetlist = .ok text := by
    have hnone : (Netlist.write patchBoard).2 = none := by decide +kernel
    refine ⟨(Netlist.write patchBoard).1, ?_⟩
    rw [Circuit.toNetlist, ← Prod.mk.eta (p := Netlist.write patchBoard), hnone]
  obtain ⟨d, hd, -, hvalues⟩ := netlist_round_trip hreach hacyclic hheld hlegible htext
  obtain ⟨x, hx, hfirst⟩ : ∃ x ∈ patchBoard.sinks,
      (Netlist.outputsOf patchBoard x)[0]? = some ("Out_0", "n") ∧ x.id = "d" := by decide +kernel
  obtain ⟨on, hon, hbulb⟩ := hvalues (fun _ => true) x hx 0 _ hfirst.1
  have hswitches : Netlist.switchLevels patchBoard (fun _ => true) = [("input-A_in", true)] := by
    decide +kernel
  have hshown : ((Simulator.new.evaluate (patchBoard.setLevels
      (Netlist.levels patchBoard fun _ => true))).2.2.inputValues "d")[0]? = some true := by
    decide +kernel
  rw [hfirst.2, hshown] at hon
  obtain rfl := Option.some.inj hon
  rw [hswitches] at hbulb
  exact ⟨hreach, hacyclic, hheld, hlegible, text, d, htext, hd, hbulb⟩

/-- A bulb that is not wired, next to a switch that is called like the constant false. -/
def groundedLamp : Circuit :=
  Edit.applyAll
    [.add ((Component.source .switch .origin).withId "gnd") (by decide),
      .add ((Component.sink .bulb .origin).withId "o") (by decide), .setLabel "o" (some "Out")]
    .empty

/-- In the text the empty slot of the bulb reads `gnd`, and that is the switch: with the switch
on, the bulb that is read shows true, although there is nothing on the slot. -/
theorem captured_ground : groundedLamp.Reachable ∧ groundedLamp.readerGraph.Acyclic ∧
    groundedLamp.ConstantsAtLevel ∧ ∃ text d,
      groundedLamp.toNetlist = .ok text ∧ Circuit.ofNetlist text.toUTF8.toList = .ok d ∧
      Netlist.outputsOf groundedLamp <$> groundedLamp.component? "o" = some [("Out", "gnd")] ∧
      (Simulator.new.evaluate (groundedLamp.setLevels [("gnd", true)])).2.2.inputValues "o" =
        [false] ∧
      ((Simulator.new.evaluate (d.setLevels [("input-gnd", true)])).2.2.component?
        "output-Out").map (·.value) = some (.bit true) := by
  have hreach : groundedLamp.Reachable := reachable_applyAll _
  have hacyclic : groundedLamp.readerGraph.Acyclic :=
    hreach.wellWired.hasCycle_eq_false_iff.1 (by decide +kernel)
  have htext : groundedLamp.toNetlist = .ok (Netlist.write groundedLamp).1 := by
    have hnone : (Netlist.write groundedLamp).2 = none := by decide +kernel
    rw [Circuit.toNetlist, ← Prod.mk.eta (p := Netlist.write groundedLamp), hnone]
  have hread : ((NetlistText.ofString (Netlist.write groundedLamp).1 >>= Netlist.ofText >>=
      Netlist.toCircuit).toOption.bind fun d =>
        ((Simulator.new.evaluate (d.setLevels [("input-gnd", true)])).2.2.component?
          "output-Out").map (·.value)) = some (.bit true) := by
    decide +kernel
  obtain ⟨d, hd, hbulb⟩ := Option.bind_eq_some_iff.1 hread
  refine ⟨hreach, hacyclic, by decide +kernel, _, d, htext, ?_, by decide +kernel,
    by decide +kernel, hbulb⟩
  rw [Circuit.ofNetlist, Netlist.ofBytes_toUTF8, ← bind_assoc]
  exact ok_of_toOption hd

end LogicCircuit
