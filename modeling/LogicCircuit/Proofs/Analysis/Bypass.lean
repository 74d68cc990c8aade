import LogicCircuit.Proofs.Analysis.Suggestions
import LogicCircuit.Proofs.Circuit.Rerouting
import LogicCircuit.Proofs.Simulation.Mirrors

/-!
# Following a suggestion

What a suggestion is about repeats a bit that is there already: two inverters repeat what drives
the inner one, and an AND or OR of one component with itself repeats that component (`Repeats`).
So whatever reads the gate may read the source instead. A slot has the same bit on it before and
after, by induction along the order of evaluation (`Rerouted.denote`), and a pass leaves every
component as it would have been (`Rerouted.evaluate`). The main result is `suggestions_are_sound`.
-/

namespace LogicCircuit

/-- What an evaluation does to a component does not depend on its wires. -/
theorem Component.unplugged_evaluate (x : Component) (bits : List Bool) :
    (x.evaluate bits).unplugged = x.unplugged.evaluate bits := by
  have hkind : x.unplugged.kind = x.kind := rfl
  unfold evaluate
  rw [hkind]
  cases x.kind <;> rfl

namespace Circuit

variable {c d : Circuit} {a b id gate source : ComponentId} {x : Component}
  {levels : List (ComponentId × Bool)} {s : Suggestion}

/-! ## Levels and driver maps -/

theorem plain_driver_of_frame (hframe : d.frame = c.frame) :
    d.plain.driver = c.plain.driver := by
  funext a i
  show (d.driversOf a)[i]?.join = (c.driversOf a)[i]?.join
  rw [driversOf_of_frame hframe]

theorem plain_component_withLevels (c : Circuit) (levels : List (ComponentId × Bool))
    (a : ComponentId) : (c.withLevels levels).plain.component a =
      (c.plain.component a).map fun x => (levels.lookup a).elim x x.atLevel := by
  show ((c.withLevels levels).component? a).map _ = ((c.component? a).map _).map _
  rw [component?_withLevels]
  cases c.component? a with
  | none => rfl
  | some x => cases levels.lookup a <;> rfl

/-- Setting levels goes along with rerouting. -/
theorem Rerouted.withLevels (h : Rerouted c d gate source)
    (levels : List (ComponentId × Bool)) :
    Rerouted (c.withLevels levels) (d.withLevels levels) gate source := by
  refine ⟨h.wired.of_frame (d.frame_withLevels levels), funext fun a => ?_, ?_⟩
  · rw [plain_component_withLevels, plain_component_withLevels, h.component]
  · rw [plain_driver_of_frame (c.frame_withLevels levels),
      plain_driver_of_frame (d.frame_withLevels levels)]
    exact h.driver

theorem Rerouted.setLevels (h : Rerouted c d gate source)
    (levels : List (ComponentId × Bool)) :
    Rerouted (c.setLevels levels) (d.setLevels levels) gate source := by
  induction levels generalizing c d with
  | nil => exact h
  | cons l levels ih =>
      show Rerouted (((c.setLevel? l.1 l.2).getD c).setLevels levels)
        (((d.setLevel? l.1 l.2).getD d).setLevels levels) gate source
      rw [setLevel_eq_withLevels, setLevel_eq_withLevels]
      exact ih (h.withLevels _)

/-! ## Values -/

/-- The components of a rerouted circuit are those of the circuit. -/
theorem Rerouted.exists_component (h : Rerouted c d gate source)
    (hx : c.component? id = some x) :
    ∃ y, d.component? id = some y ∧ y.unplugged = x.unplugged := by
  have hlook : (d.component? id).map (·.unplugged) = (c.component? id).map (·.unplugged) :=
    congrFun h.component id
  rw [hx, Option.map_some, Option.map_eq_some_iff] at hlook
  exact hlook

theorem Rerouted.component?_eq_none (h : Rerouted c d gate source)
    (hx : c.component? id = none) : d.component? id = none := by
  have hlook : (d.component? id).map (·.unplugged) = (c.component? id).map (·.unplugged) :=
    congrFun h.component id
  rwa [hx, Option.map_none, Option.map_eq_none_iff] at hlook

section

variable (hc : c.WellWired) (hacyclic : c.readerGraph.Acyclic)
  (hfeeds : c.readerGraph.Path source gate) (hrepeats : c.denote gate = c.denote source)

include hc hfeeds hrepeats

/-- The same bits arrive at a component if what leads to it has the same values. -/
theorem Rerouted.denotedInputs_eq (h : Rerouted c d gate source)
    (hbefore : ∀ b, c.readerGraph.Path b id → d.denote b = c.denote b)
    (hx : c.component? id = some x) : d.denotedInputs id = c.denotedInputs id := by
  obtain ⟨y, hy, hyx⟩ := h.exists_component hx
  have hedge : ∀ {b i}, c.plain.driver id i = some b → c.readerGraph.Path b id := fun hb =>
    .edge (hc.mem_next_readerGraph_iff_driver.2 ⟨_, hb⟩)
  rw [Circuit.denotedInputs, Circuit.denotedInputs, h.wired.driversOf_eq_map hy,
    hc.driversOf_eq_map hx, (Component.eq_of_unplugged hyx).2.1, List.map_map, List.map_map]
  refine List.map_congr_left fun i _ => ?_
  show (d.plain.driver id i).elim false d.denote = (c.plain.driver id i).elim false c.denote
  rcases h.driver id i with hsame | ⟨hgate, hsource⟩
  · rw [hsame]
    cases hb : c.plain.driver id i with
    | none => rfl
    | some b => exact hbefore b (hedge hb)
  · rw [hgate, hsource]
    exact (hbefore source (hfeeds.trans (hedge hgate))).trans hrepeats.symm

include hacyclic

/-- Rerouting changes no value. -/
theorem Rerouted.denote (h : Rerouted c d gate source) (id : ComponentId) :
    d.denote id = c.denote id := by
  cases hx : c.component? id with
  | none =>
      have hy := h.component?_eq_none hx
      rw [Circuit.denote, Circuit.denote, denoteBelow_eq_false (.inr hx),
        denoteBelow_eq_false (.inr hy)]
  | some x =>
      obtain ⟨y, hy, hyx⟩ := h.exists_component hx
      have hcone := h.wired.acyclicCone (h.acyclic hc hacyclic hfeeds)
      rw [denote_eq (hcone id) hy, denote_eq (hc.acyclicCone hacyclic id) hx,
        (Component.eq_of_unplugged hyx).2.1]
      -- what leads to the component comes first in the order of evaluation
      refine congrArg _ (h.denotedInputs_eq hc hfeeds hrepeats (fun b hb => ?_) hx)
      have hlisted := hc.mem_closed_evaluationOrder_iff.2 (mem_ids_of_component? hx)
      have hbefore : Precedes c.evaluationOrder.closed b id :=
        Traversal.precedes_of_path c.supported_driverGraph
          (hc.returns_evaluationOrder_eq_nil_iff.2 hacyclic) hlisted
          (hc.path_readerGraph_iff.1 hb)
      exact Rerouted.denote h b
termination_by c.evaluationOrder.closed.idxOf id
decreasing_by exact hbefore

/-- A pass leaves every component of a rerouted circuit as it would have been. -/
theorem Rerouted.evaluate (h : Rerouted c d gate source) {s t : Simulator} (hs : s.BelongsTo c)
    (ht : t.BelongsTo d) (id : ComponentId) :
    ((t.evaluate d).2.2.component? id).map (·.unplugged) =
      ((s.evaluate c).2.2.component? id).map (·.unplugged) := by
  cases hx : c.component? id with
  | none =>
      rw [component?_eq_none_of_frame (frame_evaluate t d) (h.component?_eq_none hx),
        component?_eq_none_of_frame (frame_evaluate s c) hx]
  | some x =>
      obtain ⟨y, hy, hyx⟩ := h.exists_component hx
      have hcone := h.wired.acyclicCone (h.acyclic hc hacyclic hfeeds)
      rw [h.wired.evaluate_of_acyclicCone ht hy (hcone id),
        hc.evaluate_of_acyclicCone hs hx (hc.acyclicCone hacyclic id), Option.map_some,
        Option.map_some, Component.unplugged_evaluate, Component.unplugged_evaluate, hyx,
        h.denotedInputs_eq hc hfeeds hrepeats
          (fun b _ => h.denote hc hacyclic hfeeds hrepeats b) hx]

end

/-! ## What repeats a bit -/

/-- A gate puts out what its source puts out: it is the second of two inverters, or an AND or OR
of the source with itself. -/
inductive Repeats (c : Circuit) (gate source : ComponentId) : Prop where
  | inverters {inner : ComponentId} {x y : Component} : c.component? gate = some x →
      x.kind = .gate .not → c.driversOf gate = [some inner] → c.component? inner = some y →
      y.kind = .gate .not → c.driversOf inner = [some source] → Repeats c gate source
  | operands {x : Component} {g : Gate} : c.component? gate = some x → x.kind = .gate g →
      g = .and ∨ g = .or → c.driversOf gate = [some source, some source] → Repeats c gate source

/-- The source leads to the gate. -/
theorem Repeats.path (h : c.Repeats gate source) (hc : c.WellWired) :
    c.readerGraph.Path source gate := by
  have hedge : ∀ {a b}, some a ∈ c.driversOf b → b ∈ c.readerGraph.next a := fun ha =>
    hc.mem_next_driverGraph_iff.1 (mem_next_of_mem_driversOf ha)
  cases h with
  | @inverters inner _ _ _ _ houter _ _ hinner =>
      have hfirst : inner ∈ c.readerGraph.next source := hedge (by simp [hinner])
      exact .cons hfirst (.edge (hedge (by simp [houter])))
  | operands _ _ _ hdrivers => exact .edge (hedge (by simp [hdrivers]))

/-- The gate has the value of its source. -/
theorem Repeats.denote_eq (h : c.Repeats gate source) (hcone : ∀ a, c.AcyclicCone a) :
    c.denote gate = c.denote source := by
  cases h with
  | inverters hx hk houter hy hky hinner =>
      rw [Circuit.denote_eq (hcone gate) hx, hk, denotedInputs, houter, List.map_singleton,
        Option.elim_some, Circuit.denote_eq (hcone _) hy, hky, denotedInputs, hinner]
      simp [Kind.respond, Gate.eval, Gate.apply]
  | operands hx hk hg hdrivers =>
      rw [Circuit.denote_eq (hcone gate) hx, hk, denotedInputs, hdrivers]
      rcases hg with rfl | rfl <;> simp [Kind.respond, Gate.eval, Gate.apply]

/-- Whether a gate repeats a bit does not depend on the state of the circuit. -/
theorem Repeats.of_frame (h : c.Repeats gate source) (hframe : d.frame = c.frame) :
    d.Repeats gate source := by
  have hkeeps : ∀ {a x g}, c.component? a = some x → x.kind = .gate g →
      ∃ y, d.component? a = some y ∧ y.kind = .gate g := fun {a x g} hx hk => by
    obtain ⟨y, hy, hyx⟩ := component?_of_frame hframe.symm hx
    have hblank : y.kind.blank = x.kind.blank := congrArg Component.Frame.kind hyx.symm
    rw [hk] at hblank
    exact ⟨y, hy, Kind.blank_eq_gate hblank⟩
  have hdrivers := driversOf_of_frame hframe
  cases h with
  | inverters hx hk houter hy hky hinner =>
      obtain ⟨x', hx', hk'⟩ := hkeeps hx hk
      obtain ⟨y', hy', hky'⟩ := hkeeps hy hky
      exact .inverters hx' hk' (hdrivers ▸ houter) hy' hky' (hdrivers ▸ hinner)
  | operands hx hk hg hgate =>
      obtain ⟨x', hx', hk'⟩ := hkeeps hx hk
      exact .operands hx' hk' hg (hdrivers ▸ hgate)

/-! ## Following a suggestion -/

/-- The gate that a suggestion takes the readers from and the source that it gives them to, if
that is there: the driver of the inner inverter, or the shared driver. -/
def bypass? (c : Circuit) : Suggestion → Option (ComponentId × ComponentId)
  | .doubleNegation outer inner => (c.plain.driver inner 0).map (outer, ·)
  | .redundantGate id _ => (c.plain.driver id 0).map (id, ·)

/-- What a suggestion takes the readers from repeats what it gives them to. -/
theorem WellWired.repeats_of_bypass? (h : c.WellWired) (hs : c.Suggests s)
    (hbypass : c.bypass? s = some (gate, source)) : c.Repeats gate source := by
  cases hs with
  | @doubleNegation outer inner x y hx hk houter hy hky =>
      obtain ⟨r, hdriver, hpair⟩ := Option.map_eq_some_iff.1 hbypass
      cases hpair
      have hinner := h.driversOf_eq_map hy
      rw [hky] at hinner
      exact .inverters hx hk houter hy hky
        (hinner.trans (by simp [Kind.arity, Gate.arity, hdriver]))
  | @redundantGate _ x g a hx hk hg hdrivers =>
      obtain ⟨r, hdriver, hpair⟩ := Option.map_eq_some_iff.1 hbypass
      cases hpair
      have hshared : c.plain.driver gate 0 = some a := by
        show (c.driversOf gate)[0]?.join = some a
        rw [hdrivers]
        rfl
      obtain rfl := Option.some.inj (hshared.symm.trans hdriver)
      exact .operands hx hk hg hdrivers

/-- A redundant gate has a driver to give its readers to. -/
theorem Suggests.isSome_bypass? {g : Gate} (h : c.Suggests (.redundantGate id g)) :
    (c.bypass? (.redundantGate id g)).isSome := by
  cases h with
  | redundantGate _ _ _ hdrivers =>
      show (Option.map _ (c.driversOf id)[0]?.join).isSome
      rw [hdrivers]
      rfl

end Circuit

/-- Suggestions are sound. In a reachable circuit without cycles, take a suggestion about two
inverters of which the inner one is driven, or about a redundant gate, which always is. Then the
slots that the gate drives, in any order, may be connected to the source instead: no connection is
refused, no cycle arises, and at any levels of the sources a pass leaves every component as it
would have been without the change. -/
theorem suggestions_are_sound {c : Circuit} (h : c.Reachable) (hcycle : c.hasCycle = false)
    {s : Suggestion} (hs : s ∈ c.suggestions) :
    (∀ id g, s = .redundantGate id g → (c.bypass? s).isSome) ∧
    ∀ gate source, c.bypass? s = some (gate, source) →
      ∀ slots, (∀ p ∈ slots, p ∈ (c.fanout gate).map fun w => (w.target, w.slot)) →
      ∃ d, c.redrive source slots = .ok d ∧ d.hasCycle = false ∧
        d.plain.component = c.plain.component ∧
        (∀ a i, d.plain.driver a i =
          if (a, i) ∈ slots then some source else c.plain.driver a i) ∧
        ∀ (levels : List (ComponentId × Bool)) (before after : Simulator),
          before.BelongsTo c → after.BelongsTo d → ∀ id,
          ((after.evaluate (d.setLevels levels)).2.2.component? id).map (·.unplugged) =
            ((before.evaluate (c.setLevels levels)).2.2.component? id).map (·.unplugged) := by
  have hwired := h.wellWired
  have hacyclic := hwired.hasCycle_eq_false_iff.1 hcycle
  have hsuggests := hwired.mem_suggestions_iff.1 hs
  refine ⟨fun id g hredundant => ?_, fun gate source hbypass slots hslots => ?_⟩
  · subst hredundant
    exact hsuggests.isSome_bypass?
  have hrepeats := hwired.repeats_of_bypass? hsuggests hbypass
  obtain ⟨d, hd, hrerouted, hdriver⟩ := (Circuit.Rerouted.refl hwired gate source).exists_redrive
    hwired hacyclic (hrepeats.path hwired)
    fun p hp => ((hwired.fanout_entries gate).2 p.1 p.2).1 (hslots p hp)
  refine ⟨d, hd, hrerouted.wired.hasCycle_eq_false_iff.2
    (hrerouted.acyclic hwired hacyclic (hrepeats.path hwired)), hrerouted.component, hdriver,
    fun levels before after hbefore hafter id => ?_⟩
  -- setting levels keeps the frames of both circuits
  have hc := hwired.of_frame (c.frame_setLevels levels)
  have hc' : (c.setLevels levels).readerGraph.Acyclic := by
    rwa [Circuit.readerGraph_of_frame (c.frame_setLevels levels)]
  have hrepeats' := hrepeats.of_frame (c.frame_setLevels levels)
  exact (hrerouted.setLevels levels).evaluate hc hc' (hrepeats'.path hc)
    (hrepeats'.denote_eq (hc.acyclicCone hc')) (hbefore.of_frame (c.frame_setLevels levels))
    (hafter.of_frame (d.frame_setLevels levels)) id

/-- Two inverters in a row drive a bulb and both slots of an AND. -/
def doubledRow : Circuit :=
  Edit.applyAll
    [.add ((Component.source .switch .origin).withId "feed") (by decide),
      .add ((Component.gate .not .origin).withId "first") (by decide),
      .add ((Component.gate .not .origin).withId "second") (by decide),
      .add ((Component.gate .and .origin).withId "twice") (by decide),
      .add ((Component.sink .bulb .origin).withId "shown") (by decide),
      .add ((Component.sink .bulb .origin).withId "last") (by decide),
      .connect "feed" "first" 0, .connect "first" "second" 0, .connect "second" "twice" 0,
      .connect "second" "twice" 1, .connect "second" "shown" 0, .connect "twice" "last" 0]
    .empty

/-- The switch takes over the three slots that the second inverter drives, and the second inverter
the one that the AND drives. -/
theorem suggestions_are_sound_doubledRow : doubledRow.Reachable ∧ doubledRow.hasCycle = false ∧
    doubledRow.suggestions = [.doubleNegation "second" "first", .redundantGate "twice" .and] ∧
    (doubledRow.fanout "second").length = 3 ∧
    (∃ d, doubledRow.redrive "feed" [("shown", 0), ("twice", 1), ("twice", 0)] = .ok d ∧
      d.hasCycle = false) ∧
    ∃ d, doubledRow.redrive "second" [("last", 0)] = .ok d ∧ d.hasCycle = false := by
  have hreach : doubledRow.Reachable := reachable_applyAll _
  have hcycle : doubledRow.hasCycle = false := by decide +kernel
  have hall : doubledRow.suggestions =
      [.doubleNegation "second" "first", .redundantGate "twice" .and] := by decide +kernel
  have hsound := fun s hs => (suggestions_are_sound hreach hcycle (s := s) hs).2
  obtain ⟨d, hd, hdcycle, -⟩ := hsound (.doubleNegation "second" "first") (by simp [hall])
    "second" "feed" (by decide +kernel) [("shown", 0), ("twice", 1), ("twice", 0)]
    (by decide +kernel)
  obtain ⟨e, he, hecycle, -⟩ := hsound (.redundantGate "twice" .and) (by simp [hall])
    "twice" "second" (by decide +kernel) [("last", 0)] (by decide +kernel)
  exact ⟨hreach, hcycle, hall, by decide +kernel, ⟨d, hd, hdcycle⟩, e, he, hecycle⟩

end LogicCircuit
