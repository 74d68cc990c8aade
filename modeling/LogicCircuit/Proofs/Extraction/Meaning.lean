import LogicCircuit.Proofs.Extraction.Reading
import Mathlib.Data.List.Nodup

/-!
# What an extracted expression means

An expression that is read off a component has, for the levels of the sources, the value of the
component by recursion on its drivers (`ReadsAs.denote_eq`), so it is what one pass puts out. The
main result `expr_sound_and_complete` says where `Circuit.expr?` finds an expression, that it
finds one for every sink of a circuit without warnings, and what the expression evaluates to.
-/

namespace LogicCircuit

/-- A component carries a bit: a sink has it on the first slot, any other puts it out. -/
def Component.Carries (y : Component) (on : Bool) : Prop :=
  match y.kind with
  | .sink s => s.bits[0]? = some on
  | _ => y.output = on

namespace Circuit

/-- Reading a component starts at the component, for a sink at what drives its first slot. -/
def ReadFrom (c : Circuit) (id start : ComponentId) : Prop :=
  ∃ x, c.component? id = some x ∧
    if x.kind.isSink then (c.driversOf id)[0]? = some (some start) else start = id

/-- Constants without a label are at the level that they are named for. -/
def ConstantsHold (c : Circuit) : Prop :=
  ∀ x ∈ c.sources, x.label = none → ∀ s ∈ x.kind.source?,
    (s.kind = .high → s.level = true) ∧ (s.kind = .low → s.level = false)

instance (c : Circuit) : Decidable c.ConstantsHold := by
  unfold ConstantsHold; infer_instance

/-- The level of the source of some display name; it is false if there is none. -/
def levelNamed (c : Circuit) (name : String) : Bool :=
  match (c.sources.find? fun x => x.displayName == name).bind (·.kind.source?) with
  | some s => s.level
  | none => false

/-- The values of variables are those that the sources have. -/
def Levels (c : Circuit) (value : String → Bool) : Prop :=
  ∀ id x s, c.component? id = some x → x.kind = .source s →
    (s.expr x.label id).eval value = s.level

variable {c : Circuit} {id start : ComponentId} {e : Expr} {x : Component} {value : String → Bool}

/-- The value of a component is that of its expression. -/
theorem ReadsAs.denote_eq (hc : c.WellWired) (hvalue : c.Levels value) (h : c.ReadsAs id e) :
    c.denote id = e.eval value := by
  have hcone := h.acyclicCone hc
  induction h with
  | @source id x s hx hk =>
      rw [Circuit.denote_eq hcone hx, hk, hvalue id x s hx hk]
      rfl
  | inverter hx hk hd h ih =>
      rw [Circuit.denote_eq hcone hx, hk, denotedInputs, hd]
      simp [Kind.respond, Gate.eval, Gate.apply, Expr.eval, ih (h.acyclicCone hc)]
  | operator hx hk hd ha hb iha ihb =>
      rw [Circuit.denote_eq hcone hx, hk, denotedInputs, hd, BinaryOp.eval_spell]
      simp [Kind.respond, Gate.eval, BinaryOp.apply, iha (ha.acyclicCone hc),
        ihb (hb.acyclicCone hc)]

/-! ## Where reading starts -/

/-- Reading starts at a source or a gate. -/
theorem ReadFrom.exists_component (hc : c.WellWired) (h : c.ReadFrom id start) :
    ∃ y, c.component? start = some y ∧ ¬ y.kind.isSink := by
  obtain ⟨x, hx, hstart⟩ := h
  split at hstart
  · exact hc.component?_driver (mem_next_of_mem_driversOf (List.mem_of_getElem? hstart))
  · rename_i hsink
    exact ⟨x, hstart ▸ hx, hsink⟩

/-- The expression of a component is what the component reads as where reading starts. -/
theorem expr?_eq_some_iff (hc : c.WellWired) :
    c.expr? id = some e ↔ ∃ start, c.ReadFrom id start ∧ c.ReadsAs start e := by
  unfold expr? ReadFrom
  cases hx : c.component? id with
  | none => simp
  | some x =>
      simp only [Option.some.injEq, exists_eq_left']
      split
      · split
        · rename_i up rest hdrivers
          simp [hdrivers, hc.nodeExpr?_eq_some_iff]
        · rename_i hfirst
          simp only [reduceCtorEq, false_iff, not_exists, not_and]
          intro start hstart
          obtain ⟨d, rest, hd⟩ := List.exists_cons_of_ne_nil (List.ne_nil_of_mem
            (List.mem_of_getElem? hstart))
          simp_all
      · simp [hc.nodeExpr?_eq_some_iff]

/-- There is an expression exactly where reading starts somewhere, all gates from there on are
driven and there is no cycle. -/
theorem exists_expr?_iff (hc : c.WellWired) : (∃ e, c.expr? id = some e) ↔
    ∃ start, c.ReadFrom id start ∧ c.GatesDriven start ∧ c.AcyclicCone start := by
  simp only [expr?_eq_some_iff hc]
  constructor
  · rintro ⟨e, start, hstart, he⟩
    exact ⟨start, hstart, he.gatesDriven hc, he.acyclicCone hc⟩
  · rintro ⟨start, hstart, hdriven, hcone⟩
    obtain ⟨e, he⟩ := hc.exists_readsAs_iff.2 ⟨hstart.exists_component hc, hdriven, hcone⟩
    exact ⟨e, start, hstart, he⟩

/-! ## Circuits without warnings -/

/-- There is nothing to warn of if the slots of gates and the first slots of sinks have wires and
the wires form no cycle. -/
theorem warnings_eq_nil_iff (c : Circuit) : c.warnings = [] ↔
    (∀ g ∈ c.gates, none ∉ g.slots) ∧ c.hasCycle = false ∧
      ∀ s ∈ c.sinks, ∃ k, s.slots[0]? = some (some k) := by
  simp only [warnings, List.append_eq_nil_iff, List.map_eq_nil_iff, List.filter_eq_nil_iff,
    and_assoc]
  refine and_congr ?_ (and_congr ?_ ?_)
  · simp [List.any_eq_true]
  · cases c.hasCycle <;> simp
  · refine forall₂_congr fun s _ => ?_
    rw [← List.head?_eq_getElem?]
    rcases s.slots with _ | ⟨_ | k, slots⟩ <;> simp

/-- Without warnings every sink has an expression. -/
theorem exists_expr?_of_warnings (hc : c.WellWired) (hnone : c.warnings = []) (hx : x ∈ c.sinks) :
    ∃ e, c.expr? x.id = some e := by
  obtain ⟨hgates, hcycle, hsinks⟩ := c.warnings_eq_nil_iff.1 hnone
  obtain ⟨hlook, hsink⟩ := mem_sinks_iff.1 hx
  obtain ⟨k, hk⟩ := hsinks x hx
  obtain ⟨w, hw, _⟩ := hc.slot hlook hk
  have hacyclic := hc.hasCycle_eq_false_iff.1 hcycle
  refine (exists_expr?_iff hc).2
    ⟨w.source, ⟨x, hlook, ?_⟩, fun a _ y hy hgate => ?_, hc.acyclicCone hacyclic w.source⟩
  · rw [if_pos hsink, driversOf_of_component? hlook, List.getElem?_map, hk]
    simp [driver?, hw]
  · obtain ⟨hmem, _⟩ := Roster.get?_eq_some_iff.1 hy
    exact hgates y (List.mem_filter.2 ⟨hmem, hgate⟩)

/-! ## What the expression evaluates to -/

/-- Where display names are distinct, each source has the level that its name stands for. -/
theorem levels_levelNamed (hnames : (c.sources.map (·.displayName)).Nodup)
    (hheld : c.ConstantsHold) : c.Levels c.levelNamed := by
  intro id x s hx hk
  obtain ⟨hmem, hid⟩ := Roster.get?_eq_some_iff.1 hx
  have hsource : x ∈ c.sources := List.mem_filter.2 ⟨hmem, by rw [hk]; rfl⟩
  have hnamed : c.levelNamed (x.label.getD id) = s.level := by
    obtain ⟨y, hy⟩ : ∃ y, c.sources.find? (fun y => y.displayName == x.displayName) = some y :=
      Option.isSome_iff_exists.1 (List.find?_isSome.2 ⟨x, hsource, by simp⟩)
    have hname : y.displayName = x.displayName := by simpa using List.find?_some hy
    have hself : y = x :=
      List.inj_on_of_nodup_map hnames (List.mem_of_find?_eq_some hy) hsource hname
    subst hself
    rw [← hid]
    show c.levelNamed y.displayName = s.level
    simp only [levelNamed, hy, Option.bind_some, hk, Kind.source?]
  have hlevel := fun hlabel => hheld x hsource hlabel s (by rw [hk]; rfl)
  -- only a constant without a label is read as a constant
  unfold Source.expr
  split
  · rename_i hkind hlabel
    exact ((hlevel hlabel).1 hkind).symm
  · rename_i hkind hlabel
    exact ((hlevel hlabel).2 hkind).symm
  · exact hnamed

/-- A component carries the value of its expression after a pass of a simulator that belongs to
the circuit. -/
theorem exists_carries (hc : c.WellWired) {s : Simulator} (hs : s.BelongsTo c)
    (hvalue : c.Levels value) (he : c.expr? id = some e) :
    ∃ y, (s.evaluate c).2.2.component? id = some y ∧ y.Carries (e.eval value) := by
  obtain ⟨start, ⟨x, hx, hstart⟩, hreads⟩ := (expr?_eq_some_iff hc).1 he
  have hcone := hreads.acyclicCone hc
  have hpass := hc.component?_evaluate hs hx
  rw [← hreads.denote_eq hc hvalue]
  split at hstart
  case isTrue hsink =>
    rw [← List.head?_eq_getElem?] at hstart
    obtain ⟨bits, hlength, hfirst, hlook⟩ := hc.exists_received hs hx hstart hcone
    refine ⟨_, hlook, ?_⟩
    cases hk : x.kind with
    | gate g => simp [hk, Kind.isSink] at hsink
    | source s => simp [hk, Kind.isSink] at hsink
    | sink t =>
        have hbits : t.bits.length = bits.length := by
          rw [(hc.formed hx).bits t hk, hlength, hk]
          rfl
        simp only [Component.Carries, Component.evaluate, hk, Sink.bits_receive hbits]
        rw [← List.head?_eq_getElem?, hfirst]
  case isFalse hsink =>
    subst hstart
    refine ⟨_, hpass, ?_⟩
    have hout := hc.outputOf_evaluate hs hx hcone
    rw [outputOf, Option.bind_some, hpass] at hout
    cases hk : x.kind with
    | sink t => simp [hk, Kind.isSink] at hsink
    | gate g => simpa [Component.Carries, Component.evaluate, hk] using hout
    | source t => simpa [Component.Carries, Component.evaluate, hk] using hout

end Circuit

/-- Extraction from a reachable circuit is sound and complete. A component has an expression
exactly if it exists, its first slot is driven if it is a sink, and from where reading starts only
gates with all slots driven and no cycle lead into it; so without warnings every sink has one.
Where display names of sources are distinct and constants without a label hold, the component
carries, after one pass of a new simulator, the value of its expression at the levels of the
sources of those names. -/
theorem expr_sound_and_complete {c : Circuit} (h : c.Reachable) :
    (∀ id, (∃ e, c.expr? id = some e) ↔
      ∃ start, c.ReadFrom id start ∧ c.GatesDriven start ∧ c.AcyclicCone start) ∧
    (c.warnings = [] → ∀ x ∈ c.sinks, ∃ e, c.expr? x.id = some e) ∧
    ((c.sources.map (·.displayName)).Nodup → c.ConstantsHold →
      ∀ id e, c.expr? id = some e → ∃ y,
        (Simulator.new.evaluate c).2.2.component? id = some y ∧
          y.Carries (e.eval c.levelNamed)) := by
  have hwired := h.wellWired
  refine ⟨fun id => Circuit.exists_expr?_iff hwired,
    fun hnone x => Circuit.exists_expr?_of_warnings hwired hnone, fun hnames hheld id e he => ?_⟩
  exact Circuit.exists_carries hwired (Simulator.belongsTo_new c)
    (Circuit.levels_levelNamed hnames hheld) he

/-- The latch with a constant on its AND, a label on a switch and the loop on a slot of the
display.
-/
def tappedLatch : Circuit :=
  Edit.applyAll
    [.add ((Component.source .high .origin).withId "one") (by decide), .connect "one" "both" 0,
      .setLabel "set" (some "S"), .connect "q" "digit" 1]
    latch

/-- A row of inverters with a bulb at its end. -/
def litRow : Circuit :=
  Edit.applyAll
    [.add ((Component.sink .bulb .origin).withId "lamp") (by decide), .connect "c" "lamp" 0]
    inverterRow

/-- The display of the tapped latch has an expression although a loop leads into it, and carries
its value; the bulb of the row has one because there is nothing to warn of. -/
theorem expr_tappedLatch :
    tappedLatch.expr? "digit" = some (.binary .and (.const true) (.var "S")) ∧
    tappedLatch.expr? "q" = none ∧
    (∃ y, (Simulator.new.evaluate tappedLatch).2.2.component? "digit" = some y ∧ y.Carries true) ∧
    litRow.warnings = [] ∧ ∃ e, litRow.expr? "lamp" = some e := by
  have htapped : tappedLatch.Reachable :=
    .new ((Run.applyAll (fun _ _ => trivial) _).trans (.applyAll (fun _ _ => trivial) _))
  have hlit : litRow.Reachable :=
    .new ((Run.applyAll (fun _ _ => trivial) _).trans (.applyAll (fun _ _ => trivial) _))
  have hread : tappedLatch.expr? "digit" = some (.binary .and (.const true) (.var "S")) := by
    decide +kernel
  have hvalue :
      (Expr.binary .and (.const true) (.var "S")).eval tappedLatch.levelNamed = true := by
    decide +kernel
  obtain ⟨_, _, hcarries⟩ := expr_sound_and_complete htapped
  have hnone : litRow.warnings = [] := by decide +kernel
  obtain ⟨x, hx⟩ : ∃ x, x ∈ litRow.sinks ∧ x.id = "lamp" := by decide +kernel
  refine ⟨hread, by decide +kernel, ?_, hnone, ?_⟩
  · have hdigit := hcarries (by decide +kernel) (by decide +kernel) "digit" _ hread
    rwa [hvalue] at hdigit
  · obtain ⟨_, hsinks, _⟩ := expr_sound_and_complete hlit
    exact hx.2 ▸ hsinks hnone x hx.1

end LogicCircuit
