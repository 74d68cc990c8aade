import LogicCircuit.Proofs.Document.Loading
import LogicCircuit.Proofs.Simulation.Mirrors

/-!
# Circuits as documents and back

The document of a circuit lists its components and its wires. Loading it renews the components,
each with its level and its timing (`Component.reloaded`), and replays the wires in the order of
their names, which is not the order in which they were made. No two of them lead to the same slot,
so what comes of them is known from `Document.replays_replayWires`: a circuit without cycles comes
back whole, and of one with cycles those wires are left out that would close a cycle in what comes
back. `document_round_trip` is the result.
-/

namespace LogicCircuit

open WireRecord (EndsApart)

namespace Kind

/-- The kind in the state in which it is loaded. -/
def renewed : Kind → Kind
  | gate g => gate g
  | source s => source (.ofKind s.kind.blank)
  | sink s => sink (.ofKind s.kind.blank)

/-- Whether the clock of a kind runs. -/
def running? (k : Kind) : Option Bool := (k.source?.bind (·.kind.timing?)).map (·.enabled)

/-- Every kind of source is found under its name. -/
theorem ofName?_source : ofNames? "input" "switch" = some (source (.ofKind .switch)) ∧
    ofNames? "input" "button" = some (source (.ofKind .button)) ∧
    ofNames? "input" "clock" = some (source (.ofKind (.clock .initial))) ∧
    ofNames? "input" "high" = some (source (.ofKind .high)) ∧
    ofNames? "input" "low" = some (source (.ofKind .low)) := by
  decide +kernel

/-- Every kind of sink is found under its name. -/
theorem ofName?_sink : ofNames? "output" "bulb" = some (sink (.ofKind .bulb)) ∧
    ofNames? "output" "display" = some (sink (.ofKind .display)) ∧
    ofNames? "output" "probe" = some (sink (.ofKind (.probe []))) ∧
    ofNames? "output" "speaker" = some (sink (.ofKind .speaker)) := by
  decide +kernel

/-- A kind is found under its own names. -/
theorem ofNames?_names (k : Kind) : ofNames? k.category k.subtype = some k.renewed := by
  obtain ⟨hswitch, hbutton, hclock, hhigh, hlow⟩ := ofName?_source
  obtain ⟨hbulb, hdisplay, hprobe, hspeaker⟩ := ofName?_sink
  cases k with
  | gate g => cases g <;> decide +kernel
  | source s =>
      obtain ⟨kind, _⟩ := s
      cases kind with
      | switch => exact hswitch
      | button => exact hbutton
      | clock timing => exact hclock
      | high => exact hhigh
      | low => exact hlow
  | sink s =>
      obtain ⟨kind, _⟩ := s
      cases kind with
      | bulb => exact hbulb
      | display => exact hdisplay
      | probe history => exact hprobe
      | speaker => exact hspeaker

/-- Kinds that are blank alike have the same names. -/
theorem names_eq_of_blank {k l : Kind} (h : k.blank = l.blank) :
    k.category = l.category ∧ k.subtype = l.subtype := by
  have hname : ∀ s : SinkKind, s.blank.name = s.name := fun s => by cases s <;> rfl
  have hinitial : ∀ s : Source, s.blank.kind.name = s.kind.name := fun s => by
    obtain ⟨kind, _⟩ := s
    cases kind <;> rfl
  cases k <;> cases l <;>
    simp only [blank, gate.injEq, source.injEq, sink.injEq, reduceCtorEq] at h
  case gate.gate g g' => exact ⟨rfl, congrArg Gate.name h⟩
  case source.source s t =>
    refine ⟨rfl, ?_⟩
    show s.kind.name = t.kind.name
    rw [← hinitial s, h, hinitial t]
  case sink.sink s t =>
    refine ⟨rfl, ?_⟩
    have hkind : s.kind.blank = t.kind.blank := congrArg Sink.kind h
    show s.kind.name = t.kind.name
    rw [← hname s.kind, hkind, hname t.kind]

end Kind

namespace Component

/-- The component that is loaded from the record of a component. -/
def reloaded (x : Component) : Component :=
  let record := ComponentRecord.ofComponent x
  { ofKind (x.kind.renewed.mapSource record.sourceState) x.position with
    id := x.id, label := x.label }

theorem component?_ofComponent (x : Component) :
    (ComponentRecord.ofComponent x).component? = some x.reloaded := by
  have hnames : Kind.ofNames? (ComponentRecord.ofComponent x).category
      (ComponentRecord.ofComponent x).subtype = some x.kind.renewed := x.kind.ofNames?_names
  rw [ComponentRecord.component?, hnames]
  rfl

theorem blank_reloaded {x : Component} (hx : x.WellFormed) :
    x.reloaded.kind.blank = x.kind.blank := by
  have hstate : ∀ (r : ComponentRecord) (s : Source), (r.sourceState s).blank = s.blank := by
    intro r s
    unfold ComponentRecord.sourceState
    cases r.value <;> simp
  show (x.kind.renewed.mapSource _).blank = x.kind.blank
  rw [Kind.blank_mapSource _ (hstate _)]
  cases hk : x.kind with
  | gate g => rfl
  | source s =>
      obtain ⟨kind, _⟩ := s
      cases kind <;> rfl
  | sink s =>
      have hbits := hx.bits s hk
      obtain ⟨kind, bits⟩ := s
      cases kind <;> dsimp only at hbits <;>
        simp [Kind.renewed, Kind.blank, Sink.blank, Sink.ofKind, SinkKind.blank, hbits,
          SinkKind.arity]

theorem level?_reloaded (x : Component) : x.reloaded.kind.level? = x.kind.level? := by
  obtain ⟨id, kind, _⟩ := x
  cases kind with
  | gate g => rfl
  | sink s => rfl
  | source s =>
      obtain ⟨kind, _⟩ := s
      cases kind <;> rfl

theorem running?_reloaded (x : Component) : x.reloaded.kind.running? = x.kind.running? := by
  obtain ⟨id, kind, _⟩ := x
  cases kind with
  | gate g => rfl
  | sink s => rfl
  | source s =>
      obtain ⟨kind, _⟩ := s
      cases kind <;> rfl

/-- What a document keeps of a component. -/
structure Restores (y x : Component) : Prop where
  id : y.id = x.id
  category : y.kind.category = x.kind.category
  subtype : y.kind.subtype = x.kind.subtype
  label : y.label = x.label
  position : y.position = x.position
  /-- A source is at the same level. -/
  level : y.kind.level? = x.kind.level?
  /-- A clock runs or does not run. -/
  running : y.kind.running? = x.kind.running?

/-- A component that is loaded from a document, whatever is on its slots, has what the document
keeps. -/
theorem restores_of_unplugged {x y : Component} (hx : x.WellFormed)
    (hy : y.unplugged = x.reloaded.unplugged) : y.Restores x := by
  obtain ⟨hcategory, hsubtype⟩ := Kind.names_eq_of_blank (blank_reloaded hx)
  obtain ⟨hid, hkind, hlabel, hposition, -⟩ := eq_of_unplugged hy
  exact ⟨hid, by rw [hkind, hcategory], by rw [hkind, hsubtype], hlabel, hposition,
    by rw [hkind, x.level?_reloaded], by rw [hkind, x.running?_reloaded]⟩

end Component

namespace Circuit

/-- A wire leads from a component to a slot of another. -/
def joins (c : Circuit) (source target : ComponentId) (slot : Nat) : Bool :=
  c.wires.entries.any fun w => w.source == source && w.target == target && w.slot == slot

/-- A wire leads to a slot exactly from what drives it. -/
theorem WellWired.joins_iff {c : Circuit} (h : c.WellWired) {source target : ComponentId}
    {slot : Nat} : c.joins source target slot ↔ c.plain.driver target slot = some source := by
  rw [h.plain_driver_iff, joins, List.any_eq_true]
  simp only [Bool.and_eq_true, beq_iff_eq, and_assoc]
  constructor
  · rintro ⟨w, hw, hend⟩
    exact ⟨w.id, w, Roster.mem_entries_iff.1 hw, hend⟩
  · rintro ⟨k, w, hw, hend⟩
    exact ⟨w, (Roster.get?_eq_some_iff.1 hw).1, hend⟩

end Circuit

namespace Document

variable {c : Circuit}

/-- The record of a wire. -/
def recordOf (w : Wire) : WireRecord := ⟨w.id, w.source, ⟨.output, 0⟩, w.target, ⟨.input, w.slot⟩⟩

/-- The components of a circuit as they are loaded from its document, without wires. -/
def renewed (c : Circuit) : Circuit :=
  Circuit.empty.addAll (c.components.entries.map (·.reloaded))

theorem wellFormed_reloaded (x : Component) : x.reloaded.WellFormed :=
  wellFormed_component? x.component?_ofComponent

/-- The components of a document that was made from a circuit load without error. -/
theorem addComponents_ofCircuit (c : Circuit) :
    addComponents [] (ofCircuit c).components .empty = .ok (renewed c) := by
  refine addComponents_eq_ok_iff.2 ⟨c.components.entries.map (·.reloaded), ?_, rfl, by simp, ?_⟩
  · show (c.components.entries.map _).map _ = _
    rw [List.map_map, List.map_map]
    exact List.map_congr_left fun x _ => x.component?_ofComponent
  · refine List.pairwise_map.2 (c.components.increasing.imp fun hlt _ => ?_)
    exact String.ne_of_lt hlt

theorem wellWired_renewed (c : Circuit) : (renewed c).WellWired := by
  refine .addAll .empty fun y hy => ?_
  obtain ⟨x, -, rfl⟩ := List.mem_map.1 hy
  exact wellFormed_reloaded x

/-- Each component is loaded under its own name. -/
theorem component_renewed (h : c.Reachable) (a : ComponentId) :
    (renewed c).plain.component a = (c.component? a).map fun x => x.reloaded.unplugged := by
  have hformed : ∀ y ∈ c.components.entries.map (·.reloaded), y.WellFormed := fun y hy => by
    obtain ⟨x, -, rfl⟩ := List.mem_map.1 hy
    exact wellFormed_reloaded x
  have hnames : Circuit.empty.namesGiven (c.components.entries.map (·.reloaded)) = c.ids := by
    rw [Circuit.namesGiven_eq_map, List.map_map]
    · rfl
    · rintro y hy hid
      obtain ⟨x, hx, rfl⟩ := List.mem_map.1 hy
      have hfound : c.component? "" = some x :=
        Roster.get?_eq_some_iff.2 ⟨hx, hid⟩
      rw [Circuit.Reachable.component_empty h] at hfound
      cases hfound
  cases hx : c.component? a with
  | none =>
      have hout : a ∉ c.ids := fun hmem => by
        obtain ⟨x, hx'⟩ := Circuit.mem_ids_iff.1 hmem
        cases hx.symm.trans hx'
      exact Circuit.WellWired.empty.component_addAll_of_not_mem hformed (hnames ▸ hout)
  | some x =>
      obtain ⟨hmem, hid⟩ := Roster.get?_eq_some_iff.1 hx
      obtain ⟨i, hi⟩ := List.mem_iff_getElem?.1 hmem
      have hname : c.ids[i]? = some a := by rw [Circuit.ids, List.getElem?_map, hi, ← hid]; rfl
      have hlast : a ∉ c.ids.drop (i + 1) := by
        intro hlater
        obtain ⟨j, hj, hja⟩ := List.mem_drop_iff_getElem.1 hlater
        obtain ⟨hi', hia⟩ := List.getElem?_eq_some_iff.1 hname
        have hsame := c.nodup_ids.getElem_inj_iff.1 (hja.trans hia.symm)
        omega
      rw [← hnames] at hname hlast
      have hfound := Circuit.WellWired.empty.component_addAll hformed
        (by rw [List.getElem?_map, hi]; rfl) hname hlast
      rw [← hid] at hfound ⊢
      exact hfound

/-- Nothing is objected to a wire when it is loaded. -/
theorem flaw?_recordOf (h : c.Reachable) {w : Wire} (hw : w ∈ c.wires.entries) :
    (recordOf w).flaw? (renewed c) = none := by
  have hwired := h.wellWired
  have hw := Roster.mem_entries_iff.1 hw
  have hfind : ∀ {a x}, c.component? a = some x → ∃ y, (renewed c).component? a = some y ∧
      y.kind = x.reloaded.kind ∧ y.arity = x.arity := by
    intro a x hx
    have hlook := component_renewed h a
    rw [hx] at hlook
    obtain ⟨y, hy, hyx⟩ := Option.map_eq_some_iff.1 hlook
    obtain ⟨-, hkind, -⟩ := Component.eq_of_unplugged hyx
    have hformed := (wellWired_renewed c).formed hy
    refine ⟨y, hy, hkind, ?_⟩
    rw [Component.arity, Component.arity, hformed.slots, (hwired.formed hx).slots, hkind]
    exact Kind.arity_eq_of_blank (Component.blank_reloaded (hwired.formed hx))
  obtain ⟨s, hs, hout⟩ := hwired.source hw
  obtain ⟨t, ht, hslot⟩ := hwired.target hw
  obtain ⟨s', hs', hkind, -⟩ := hfind hs
  obtain ⟨t', ht', -, harity⟩ := hfind ht
  have hsink : s'.kind.isSink = s.kind.isSink := by
    rw [hkind]
    exact Kind.isSink_eq_of_blank (Component.blank_reloaded (hwired.formed hs))
  rw [WireRecord.flaw?, if_pos ⟨rfl, rfl⟩]
  refine Circuit.objection?_true_eq_none hs' ht' (hwired.distinct hw) (by rwa [hsink]) ?_
  rw [harity]
  exact (List.getElem?_eq_some_iff.1 hslot).1

/-- The wires of a circuit lead to different slots. -/
theorem endsApart_recordOf (h : c.WellWired) :
    (c.wires.entries.map recordOf).Pairwise EndsApart := by
  refine List.pairwise_map.2
    (c.nodup_wires.pairwise_of_forall_ne fun v hv w hw hne _ _ hend => ?_)
  have hv := Roster.mem_entries_iff.1 hv
  have hw := Roster.mem_entries_iff.1 hw
  exact hne (h.eq_of_end hw hv hend.1 hend.2).2

/-- What comes of the wires of a circuit when they are loaded. -/
theorem replays_ofCircuit (h : c.Reachable) :
    Replays (renewed c) (c.wires.entries.map recordOf)
      (replayWires (ofCircuit c).wires (renewed c)).1
      (replayWires (ofCircuit c).wires (renewed c)).2 :=
  replays_replayWires (wellWired_renewed c) (endsApart_recordOf h.wellWired) fun _ _ _ =>
    plain_driver_addComponents (d := ofCircuit c) (addComponents_ofCircuit c) _ _

section Loaded

variable {report : LoadReport} {d : Circuit}

/-- A loaded circuit has the components of the original. -/
theorem exists_restored (h : c.Reachable)
    (hd : Replays (renewed c) (c.wires.entries.map recordOf) report d) {id : ComponentId}
    {x : Component} (hx : c.component? id = some x) :
    ∃ y, d.component? id = some y ∧ y.unplugged = x.reloaded.unplugged := by
  have hlook : d.plain.component id = (c.component? id).map fun x => x.reloaded.unplugged := by
    rw [hd.component, component_renewed h]
  rw [hx] at hlook
  obtain ⟨y, hy, hyx⟩ := Option.map_eq_some_iff.1 hlook
  exact ⟨y, hy, hyx⟩

/-- A loaded circuit has the names of the original. -/
theorem ids_of_replays (h : c.Reachable)
    (hd : Replays (renewed c) (c.wires.entries.map recordOf) report d) : d.ids = c.ids := by
  refine Circuit.ids_eq_of_mem_iff fun a => ?_
  rw [Circuit.mem_ids_iff_component, hd.component, component_renewed h, Circuit.mem_ids_iff]
  cases c.component? a <;> simp

/-- What drives a slot of a loaded circuit drove it in the original. -/
theorem driver_of_replays (h : c.Reachable)
    (hd : Replays (renewed c) (c.wires.entries.map recordOf) report d) (a : ComponentId) (i : Nat)
    (b : ComponentId) (hb : d.plain.driver a i = some b) : c.plain.driver a i = some b := by
  rcases hd.comes a i b hb with hold | ⟨w, hw, -, rfl, rfl, rfl⟩
  · rw [plain_driver_addComponents (d := ofCircuit c) (addComponents_ofCircuit c)] at hold
    cases hold
  · obtain ⟨v, hv, rfl⟩ := List.mem_map.1 hw
    exact h.wellWired.plain_driver (Roster.mem_entries_iff.1 hv)

/-- The report has a line for each wire that is missing. -/
theorem report_of_replays (h : c.Reachable)
    (hd : Replays (renewed c) (c.wires.entries.map recordOf) report d) :
    report = (c.wires.entries.filter fun w => !d.joins w.source w.target w.slot).map
      fun w => (w.id, .wouldCreateCycle w.source w.target) := by
  rw [hd.report, List.filterMap_map, ← List.filterMap_eq_map, List.filterMap_filter]
  refine List.filterMap_congr fun w hw => ?_
  have hin : (recordOf w).InPlace d ↔ d.joins w.source w.target w.slot := hd.wired.joins_iff.symm
  show ((recordOf w).refusal? (renewed c) d).map _ = _
  rw [WireRecord.refusal?, flaw?_recordOf h hw, Option.none_or]
  by_cases hjoins : d.joins w.source w.target w.slot
  · rw [if_pos (hin.2 hjoins), hjoins]
    rfl
  · rw [if_neg fun h => hjoins (hin.1 h), Bool.eq_false_of_not_eq_true hjoins]
    rfl

/-- A wire that is missing would close a cycle. -/
theorem reaches_of_missing (h : c.Reachable)
    (hd : Replays (renewed c) (c.wires.entries.map recordOf) report d) {w : Wire}
    (hw : w ∈ c.wires.entries) (hmissing : d.joins w.source w.target w.slot = false) :
    d.readerGraph.Reaches w.target w.source := by
  refine hd.cut (recordOf w) (List.mem_map_of_mem hw) (flaw?_recordOf h hw) fun hin => ?_
  have hjoins : d.joins w.source w.target w.slot = true := hd.wired.joins_iff.2 hin
  rw [hmissing] at hjoins
  cases hjoins

/-- Nothing is missing from a circuit without cycles. -/
theorem driver_of_acyclic (h : c.Reachable)
    (hd : Replays (renewed c) (c.wires.entries.map recordOf) report d)
    (hacyclic : c.readerGraph.Acyclic) (a : ComponentId) (i : Nat) :
    d.plain.driver a i = c.plain.driver a i := by
  have hwired := h.wellWired
  refine Option.ext fun b => ⟨driver_of_replays h hd a i b, fun hb => ?_⟩
  obtain ⟨k, w, hw, rfl, rfl, rfl⟩ := hwired.plain_driver_iff.1 hb
  rw [← hd.wired.joins_iff]
  by_contra hmissing
  have hback := hd.wired.reaches_mono hwired (driver_of_replays h hd)
    (reaches_of_missing h hd (Roster.get?_eq_some_iff.1 hw).1
      (Bool.eq_false_of_not_eq_true hmissing))
  have hnext : w.target ∈ c.readerGraph.next w.source :=
    Circuit.mem_next_readerGraph_iff.2 ⟨k, w, hw, rfl, rfl⟩
  exact hacyclic w.source (hback.cons hnext)

/-- If nothing is missing, a cycle is still there. -/
theorem acyclic_of_report_nil (h : c.Reachable)
    (hd : Replays (renewed c) (c.wires.entries.map recordOf) report d) (hnil : report = [])
    (hacyclic : d.readerGraph.Acyclic) : c.readerGraph.Acyclic := by
  have hwired := h.wellWired
  refine hwired.acyclic_of_drivers hd.wired (fun a i b hb => ?_) hacyclic
  obtain ⟨k, w, hw, rfl, rfl, rfl⟩ := hwired.plain_driver_iff.1 hb
  rw [report_of_replays h hd, List.map_eq_nil_iff, List.filter_eq_nil_iff] at hnil
  have hin := hnil w (Roster.get?_eq_some_iff.1 hw).1
  rw [Bool.not_eq_true', Bool.not_eq_false] at hin
  exact hd.wired.joins_iff.1 hin

/-- A component that is loaded is of the same kind and at the same level. -/
theorem alike_of_restored {x y : Component} (hx : x.WellFormed)
    (hyx : y.unplugged = x.reloaded.unplugged) :
    y.kind.blank = x.kind.blank ∧ y.kind.level? = x.kind.level? := by
  obtain ⟨-, hkind, -⟩ := Component.eq_of_unplugged hyx
  rw [hkind]
  exact ⟨Component.blank_reloaded hx, x.level?_reloaded⟩

/-- A circuit without cycles is mirrored, name by name, by what is loaded from its document. -/
theorem mirrors_of_acyclic (h : c.Reachable)
    (hd : Replays (renewed c) (c.wires.entries.map recordOf) report d)
    (hacyclic : c.readerGraph.Acyclic) :
    Circuit.Mirrors c d fun a b => a = b ∧ (c.component? a).isSome := by
  have hwired := h.wellWired
  refine ⟨?_, ?_, ?_⟩
  · rintro a _ ⟨rfl, hsome⟩
    obtain ⟨x, hx⟩ := Option.isSome_iff_exists.1 hsome
    obtain ⟨y, hy, hyx⟩ := exists_restored h hd hx
    obtain ⟨hblank, hlevel⟩ := alike_of_restored (hwired.formed hx) hyx
    exact ⟨x, y, hx, hy, funext fun bits => Kind.respond_eq_of_blank hblank hlevel bits⟩
  · rintro a _ ⟨rfl, hsome⟩
    obtain ⟨x, hx⟩ := Option.isSome_iff_exists.1 hsome
    obtain ⟨y, hy, hyx⟩ := exists_restored h hd hx
    rw [hd.wired.length_driversOf hy, hwired.length_driversOf hx,
      Kind.arity_eq_of_blank (alike_of_restored (hwired.formed hx) hyx).1]
  · rintro a _ ⟨rfl, -⟩ i o p ho hp
    have hdriver := driver_of_acyclic h hd hacyclic a i
    have hjoin : (d.driversOf a)[i]?.join = (c.driversOf a)[i]?.join := hdriver
    rw [ho, hp, Option.join_some, Option.join_some] at hjoin
    subst hjoin
    cases p with
    | none => exact .inr rfl
    | some b =>
        obtain ⟨y, hy, -⟩ := hwired.component?_driver
          (Circuit.mem_next_of_mem_driversOf (List.mem_of_getElem? ho))
        exact .inl ⟨b, b, rfl, rfl, rfl, by rw [hy]; rfl⟩

/-- After one pass, every component shows what it shows in a circuit without cycles after one
pass. -/
theorem value_of_acyclic (h : c.Reachable)
    (hd : Replays (renewed c) (c.wires.entries.map recordOf) report d)
    (hacyclic : c.readerGraph.Acyclic) (hdacyclic : d.readerGraph.Acyclic) {s : Simulator}
    (hs : s.BelongsTo c) (id : ComponentId) :
    ((Simulator.new.evaluate d).2.2.component? id).map (·.value) =
      ((s.evaluate c).2.2.component? id).map (·.value) := by
  have hwired := h.wellWired
  have hmirrors := mirrors_of_acyclic h hd hacyclic
  have hcone := hwired.acyclicCone hacyclic
  have hdcone := hd.wired.acyclicCone hdacyclic
  cases hx : c.component? id with
  | none =>
      have hnone : ∀ {b : Circuit} (s : Simulator), b.component? id = none →
          (s.evaluate b).2.2.component? id = none := by
        intro b s hb
        have hlook := Circuit.frame_component? (Circuit.frame_evaluate s b) id
        rwa [hb, Option.map_none, Option.map_eq_none_iff] at hlook
      have hlook : d.plain.component id = none := by
        rw [hd.component, component_renewed h, hx, Option.map_none]
      rw [hnone s hx, hnone _ (Option.map_eq_none_iff.1 hlook)]
  | some x =>
      have hrelated : id = id ∧ (c.component? id).isSome := ⟨rfl, by rw [hx]; rfl⟩
      obtain ⟨y, hy, hyx⟩ := exists_restored h hd hx
      obtain ⟨hblank, hlevel⟩ := alike_of_restored (hwired.formed hx) hyx
      rw [hd.wired.value_evaluate (Simulator.belongsTo_new d) hy (hdcone id),
        hwired.value_evaluate hs hx (hcone id),
        hmirrors.denotedInputs hwired hcone hdcone hrelated,
        Kind.shown_eq_of_blank hblank hlevel]

end Loaded

/-- Strict loading refuses the document of a circuit exactly if its wires form a cycle. -/
theorem strict_error_ofCircuit_iff (h : c.Reachable) :
    (∃ id, (ofCircuit c).toCircuit true = .error (.cycle id)) ↔ ¬ c.readerGraph.Acyclic := by
  have hbase := addComponents_ofCircuit c
  have hwired := h.wellWired
  constructor
  · intro hstrict hacyclic
    -- a wire that is skipped would be missing from a circuit without cycles
    obtain ⟨r, hr, -, hmissing⟩ :=
      (replays_ofCircuit h).exists_missing (cutsCycle_of_strict_error hbase hstrict)
    obtain ⟨w, hw, rfl⟩ := List.mem_map.1 hr
    refine hmissing ?_
    rw [WireRecord.InPlace, driver_of_acyclic h (replays_ofCircuit h) hacyclic]
    exact hwired.plain_driver (Roster.mem_entries_iff.1 hw)
  · intro hcycle
    refine (strict_error_iff hbase).2 fun hacyclic => hcycle ?_
    refine hwired.acyclic_of_drivers (wellWired_forceWires (wellWired_renewed c) _)
      (fun a i b hb => ?_) hacyclic
    obtain ⟨k, w, hw, rfl, rfl, rfl⟩ := hwired.plain_driver_iff.1 hb
    have hmem := (Roster.get?_eq_some_iff.1 hw).1
    exact inPlace_forceWires (w := recordOf w) (wellWired_renewed c) (endsApart_recordOf hwired)
      (List.mem_map_of_mem hmem) (flaw?_recordOf h hmem)

end Document

/-- A circuit comes back from its document. Loading the document of a reachable circuit, skipping
cycles, gives a circuit with the same names; each component has the kind, label, place, level and
running clock of the original, and each wire is one of the original. The report has one line for
each wire that is missing, and that wire would close a cycle. The report is empty exactly if the
original has no cycle; then no wire is missing, and after one pass every component shows what it
shows in the original after one pass. Strict loading refuses the document exactly if there is a
cycle. -/
theorem document_round_trip {c : Circuit} (h : c.Reachable) :
    ∃ report d, (Document.ofCircuit c).toCircuit false = .ok (report, d) ∧
      d.ids = c.ids ∧
      (∀ id x y, c.component? id = some x → d.component? id = some y → y.Restores x) ∧
      (∀ source target slot, d.joins source target slot → c.joins source target slot) ∧
      report = (c.wires.entries.filter fun w => !d.joins w.source w.target w.slot).map
        (fun w => (w.id, .wouldCreateCycle w.source w.target)) ∧
      (∀ w ∈ c.wires.entries, d.joins w.source w.target w.slot = false →
        d.wouldCreateCycle w.source w.target) ∧
      (report = [] ↔ c.readerGraph.Acyclic) ∧
      (c.readerGraph.Acyclic →
        (∀ source target slot, d.joins source target slot = c.joins source target slot) ∧
        ∀ s : Simulator, s.BelongsTo c → ∀ id,
          ((Simulator.new.evaluate d).2.2.component? id).map (·.value) =
            ((s.evaluate c).2.2.component? id).map (·.value)) ∧
      ((∃ id, (Document.ofCircuit c).toCircuit true = .error (.cycle id)) ↔
        ¬ c.readerGraph.Acyclic) := by
  have hwired := h.wellWired
  have hload := (Document.toCircuit_of_addComponents (Document.addComponents_ofCircuit c)).1
  have hd := Document.replays_ofCircuit h
  have hdacyclic : (Document.replayWires (Document.ofCircuit c).wires
      (Document.renewed c)).2.readerGraph.Acyclic :=
    acyclic_of_unforced (.loaded (.document hload) .refl)
  generalize Document.replayWires (Document.ofCircuit c).wires (Document.renewed c) = r
    at hload hd hdacyclic
  obtain ⟨report, d⟩ := r
  dsimp only at hd hdacyclic
  have hdriver := Document.driver_of_acyclic h hd
  refine ⟨report, d, hload, Document.ids_of_replays h hd, fun id x y hx hy => ?_,
    fun source target slot hjoins => ?_, Document.report_of_replays h hd,
    fun w hw hmissing => ?_, ⟨fun hnil => ?_, fun hacyclic => ?_⟩, fun hacyclic => ⟨?_, ?_⟩,
    Document.strict_error_ofCircuit_iff h⟩
  · obtain ⟨y', hy', hyx⟩ := Document.exists_restored h hd hx
    obtain rfl := Option.some.inj (hy.symm.trans hy')
    exact Component.restores_of_unplugged (hwired.formed hx) hyx
  · rw [hwired.joins_iff]
    exact Document.driver_of_replays h hd _ _ _ (hd.wired.joins_iff.1 hjoins)
  · exact (Circuit.wouldCreateCycle_iff hd.wired).2 (Document.reaches_of_missing h hd hw hmissing)
  · exact Document.acyclic_of_report_nil h hd hnil hdacyclic
  · rw [Document.report_of_replays h hd, List.map_eq_nil_iff, List.filter_eq_nil_iff]
    intro w hw
    rw [Bool.not_eq_true', Bool.not_eq_false, hd.wired.joins_iff, hdriver hacyclic]
    exact hwired.plain_driver (Roster.mem_entries_iff.1 hw)
  · intro source target slot
    rw [Bool.eq_iff_iff, hd.wired.joins_iff, hwired.joins_iff, hdriver hacyclic]
  · exact fun s hs id => Document.value_of_acyclic h hd hacyclic hdacyclic hs id

/-- The latch comes back without one of the wires of its loop, and strict loading refuses it. -/
theorem document_round_trip_latch : latch.Reachable ∧
    ∃ report d, (Document.ofCircuit latch).toCircuit false = .ok (report, d) ∧ report ≠ [] ∧
      d.ids = latch.ids ∧
      ∃ id, (Document.ofCircuit latch).toCircuit true = .error (.cycle id) := by
  have hreach : latch.Reachable := reachable_applyAll _
  obtain ⟨report, d, hload, hids, -, -, -, -, hcomplete, -, hstrict⟩ := document_round_trip hreach
  have hcycle : ¬ latch.readerGraph.Acyclic := fun hacyclic =>
    hacyclic "p" (.cons (b := "q") (by decide +kernel) (.edge (by decide +kernel)))
  exact ⟨hreach, report, d, hload, fun hnil => hcycle (hcomplete.1 hnil), hids,
    hstrict.2 hcycle⟩

end LogicCircuit
