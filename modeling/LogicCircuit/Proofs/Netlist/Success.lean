import LogicCircuit.Proofs.Netlist.Building
import Mathlib.Logic.Relation

/-!
# Netlists that are built to the end

The building of a netlist stops at a signal that nothing drives and at a wire that is refused.
Since the parts that a wire joins are there when it is made, it is refused only if it closes a
cycle, and every wire leads from a part that comes before to one that comes after
(`Netlist.Before`). So a netlist whose signals are all driven, none by itself, is built to the
end: `exists_realizes`. Which part drives a slot of what is built is told by
`Realizes.driver_gate` and `Realizes.driver_output`.
-/

namespace LogicCircuit

namespace Netlist

variable {n : Netlist} {c d : Circuit} {p q : Part} {s : Signal} {name asked : String}
  {names : List String} {steps slot : Nat} {driver : Driver} {a b : ComponentId}

/-! ## The order of the parts -/

variable (n) in
/-- A part drives a slot of another. -/
def Before (p q : Part) : Prop := ∃ slot driver, p = partOf driver ∧ n.Feeds q slot driver

variable (n) in
/-- Different signals have different names, they have as many arguments as they need, all that is
asked for is driven, and nothing comes before itself. -/
structure Buildable : Prop where
  nodup : n.driven.Nodup
  arity : ∀ s ∈ n.signals, s.args.length = s.operation.arity
  args : ∀ s ∈ n.signals, IsGate s → ∀ arg ∈ s.args, ∃ driver, n.resolve arg = .ok driver
  outputs : ∀ name ∈ n.outputs, ∃ driver, n.resolve name = .ok driver
  acyclic : ∀ p, ¬ Relation.TransGen n.Before p p

/-- Wires lead from parts that come before to parts that come after. -/
theorem Frames.transGen_of_path (h : n.Frames c) (hab : c.readerGraph.Path a b) :
    ∃ p q, a = Part.id p ∧ b = Part.id q ∧ Relation.TransGen n.Before p q := by
  have hedge : ∀ {a b}, b ∈ c.readerGraph.next a →
      ∃ p q, a = Part.id p ∧ b = Part.id q ∧ n.Before p q := by
    intro a b hb
    obtain ⟨i, hi⟩ := h.wired.mem_next_readerGraph_iff_driver.1 hb
    obtain ⟨q, driver, hq, hp, hfeeds⟩ := h.feeds _ _ _ hi
    exact ⟨partOf driver, q, hp, hq, i, driver, rfl, hfeeds⟩
  induction hab with
  | edge he =>
      obtain ⟨p, q, ha, hb, hpq⟩ := hedge he
      exact ⟨p, q, ha, hb, .single hpq⟩
  | cons he _ ih =>
      obtain ⟨p, q, ha, hb, hpq⟩ := hedge he
      obtain ⟨q', r, hb', hc, hqr⟩ := ih
      obtain rfl := Part.id_injective (hb.symm.trans hb')
      exact ⟨p, r, ha, hc, .head hpq hqr⟩

/-- Where nothing comes before itself, wires form no cycle. -/
theorem Frames.acyclic (h : n.Frames c) (hn : n.Buildable) : c.readerGraph.Acyclic := by
  intro a ha
  obtain ⟨p, q, hp, hq, hpq⟩ := h.transGen_of_path ha
  obtain rfl := Part.id_injective (hp.symm.trans hq)
  exact hn.acyclic p hpq

/-- What drives a part is not reached from it. -/
theorem Frames.not_reaches (h : n.Frames c) (hn : n.Buildable) (hfeeds : n.Feeds p slot driver) :
    ¬ c.readerGraph.Reaches p.id (partOf driver).id := by
  have hbefore : n.Before (partOf driver) p := ⟨slot, driver, rfl, hfeeds⟩
  rintro (heq | hpath)
  · have hself := Part.id_injective heq
    exact hn.acyclic p (.single (hself ▸ hbefore))
  · obtain ⟨p', q', hp, hq, hpq⟩ := h.transGen_of_path hpath
    obtain rfl := Part.id_injective hp
    obtain rfl := Part.id_injective hq
    exact hn.acyclic p (hpq.tail hbefore)

/-! ## Unique signals -/

/-- A slot is fed by one driver. -/
theorem feeds_unique (hn : n.driven.Nodup) {driver' : Driver} (h : n.Feeds p slot driver)
    (h' : n.Feeds p slot driver') : driver' = driver := by
  cases p with
  | input name => cases h
  | constant on => cases h
  | gate name =>
      obtain ⟨s, hs, hname, -, arg, harg, hdriver⟩ := h
      obtain ⟨t, ht, hname', -, arg', harg', hdriver'⟩ := h'
      obtain rfl := signal_unique hn hs ht (hname'.trans hname.symm)
      obtain rfl := Option.some.inj (harg.symm.trans harg')
      exact Except.ok.inj (hdriver'.symm.trans hdriver)
  | output name => exact Except.ok.inj (h'.2.2.symm.trans h.2.2)

/-! ## Making wires -/

/-- The component of a part that is there. -/
theorem Frames.exists_component (h : n.Frames c) (hp : Has c p) :
    ∃ x, c.component? p.id = some x ∧ n.PartKind p x.kind := by
  obtain ⟨y, hy⟩ := Option.isSome_iff_exists.1 hp
  obtain ⟨x, hx, rfl⟩ := Option.map_eq_some_iff.1 hy
  obtain ⟨q, hid, hkind⟩ := h.part _ _ hy
  obtain rfl := Part.id_injective hid
  exact ⟨x, hx, hkind⟩

/-- A part has the slots that are fed. -/
theorem Buildable.slot_lt (hn : n.Buildable) {k : Kind} (hfeeds : n.Feeds p slot driver)
    (hk : n.PartKind p k) : slot < k.arity := by
  cases p with
  | input name => cases hfeeds
  | constant on => cases hfeeds
  | gate name =>
      obtain ⟨s, hs, hname, -, arg, harg, -⟩ := hfeeds
      obtain ⟨t, ht, hname', g, hg, rfl⟩ := hk
      obtain rfl := signal_unique hn.nodup hs ht (hname'.trans hname.symm)
      have hlt := (List.getElem?_eq_some_iff.1 harg).1
      rwa [hn.arity _ hs, hg] at hlt
  | output name =>
      obtain ⟨-, rfl⟩ := hk
      rw [hfeeds.2.1]
      exact Nat.one_pos

/-- A part that drives is no sink. -/
theorem not_isSink_of_partKind {k : Kind} (hk : n.PartKind (partOf driver) k) : ¬ k.isSink := by
  cases driver with
  | input name =>
      obtain ⟨-, rfl⟩ := hk
      exact Bool.false_ne_true
  | gate name =>
      obtain ⟨-, -, -, g, -, rfl⟩ := hk
      exact Bool.false_ne_true
  | constant on =>
      obtain rfl : k = _ := hk
      exact Bool.false_ne_true

/-- A wire between parts that are there is accepted. -/
theorem Frames.exists_connect (h : n.Frames c) (hn : n.Buildable)
    (hfeeds : n.Feeds p slot driver) (hsource : Has c (partOf driver)) (htarget : Has c p) :
    ∃ k d, c.connect (partOf driver).id p.id slot = .ok (k, d) := by
  obtain ⟨x, hx, hkx⟩ := h.exists_component hsource
  obtain ⟨y, hy, hky⟩ := h.exists_component htarget
  have hback := h.not_reaches hn hfeeds
  have hslot : slot < y.arity := by
    rw [Component.arity, (h.wired.formed hy).slots]
    exact hn.slot_lt hfeeds hky
  have hnone := Circuit.objection?_true_eq_none hx hy (fun heq => hback (.inl heq.symm))
    (not_isSink_of_partKind hkx) hslot
  obtain ⟨k, d, hforce, -⟩ := h.wired.exists_force hnone
  rcases h.wired.connect_cases hnone with ⟨hreaches, -⟩ | ⟨-, hconnect⟩
  · exact absurd hreaches hback
  · exact ⟨k, d, hconnect.trans hforce⟩

/-- What is declared is there once it was asked for. -/
theorem Stocked.has_sourceOf (h : n.Stocked c) (hoffers : n.Offers driver) :
    Has (sourceOf driver c).2 (partOf driver) := by
  obtain ⟨-, -, -, hconstant⟩ := h.sourceOf driver
  cases driver with
  | input name => exact h.input name hoffers
  | gate name =>
      obtain ⟨s, hs, rfl, hgate⟩ := hoffers
      exact h.gate s hs hgate
  | constant on => exact hconstant on rfl

/-- A slot of a part that is there can be driven. -/
theorem Stocked.exists_drive (h : n.Stocked c) (hn : n.Buildable) (htarget : Has c p)
    (hresolve : ∃ driver, n.resolve name = .ok driver)
    (hfeeds : ∀ driver, n.resolve name = .ok driver → n.Feeds p slot driver) :
    ∃ d, n.drive name p.id slot c = .ok d := by
  obtain ⟨driver, hdriver⟩ := hresolve
  obtain ⟨hid, hframes, hgrows, -⟩ := h.sourceOf driver
  obtain ⟨k, d, hd⟩ := hframes.exists_connect hn (hfeeds driver hdriver)
    (h.has_sourceOf (offers_of_resolve hdriver)) (hgrows.component htarget)
  rw [← hid] at hd
  refine ⟨d, ?_⟩
  unfold Netlist.drive
  simp only [hdriver, bind, Except.bind, hd]
  rfl

/-- All slots of a gate can be driven, from some slot on. -/
theorem Stocked.exists_driveAll (h : n.Stocked c) (hn : n.Buildable) (hs : s ∈ n.signals)
    (hgate : IsGate s) (hnames : s.args.drop slot = names) :
    ∃ d, n.driveAll (gateId s.name) names slot c = .ok d := by
  induction names generalizing slot c with
  | nil => exact ⟨c, rfl⟩
  | cons name names ih =>
      have harg : s.args[slot]? = some name := by
        rw [← List.head?_drop, hnames, List.head?_cons]
      have hrest : s.args.drop (slot + 1) = names := by
        rw [← List.tail_drop, hnames, List.tail_cons]
      have hfeeds : ∀ driver, n.resolve name = .ok driver → n.Feeds (.gate s.name) slot driver :=
        fun driver hdriver => ⟨s, hs, rfl, hgate, name, harg, hdriver⟩
      obtain ⟨b, hb⟩ := h.exists_drive hn (p := .gate s.name) (h.gate s hs hgate)
        (hn.args s hs hgate name (List.mem_of_getElem? harg)) hfeeds
      obtain ⟨hframes, hgrows, -⟩ := h.drive (p := .gate s.name) hfeeds hb
      obtain ⟨d, hd⟩ := ih (h.grows hframes hgrows) hrest
      have hb' : n.drive name (gateId s.name) slot c = .ok b := hb
      refine ⟨d, ?_⟩
      unfold Netlist.driveAll
      simp only [hb', bind, Except.bind, hd]

/-- All gates can be driven. -/
theorem Stocked.exists_driveGates {signals : List Signal} (h : n.Stocked c) (hn : n.Buildable)
    (hsignals : ∀ s ∈ signals, s ∈ n.signals) : ∃ d, n.driveGates signals c = .ok d := by
  induction signals generalizing c with
  | nil => exact ⟨c, rfl⟩
  | cons s signals ih =>
      obtain ⟨hs, hsignals⟩ := List.forall_mem_cons.1 hsignals
      cases hop : s.operation with
      | gate g =>
          obtain ⟨b, hb⟩ := h.exists_driveAll hn hs ⟨g, hop⟩ List.drop_zero
          obtain ⟨hframes, hgrows, -⟩ := h.driveAll hs ⟨g, hop⟩ List.drop_zero hb
          obtain ⟨d, hd⟩ := ih (h.grows hframes hgrows) hsignals
          refine ⟨d, ?_⟩
          unfold Netlist.driveGates
          simp only [hop, hb, bind, Except.bind, hd]
      | buffer =>
          obtain ⟨d, hd⟩ := ih h hsignals
          refine ⟨d, ?_⟩
          unfold Netlist.driveGates
          simp only [hop, bind, Except.bind, hd]
      | constant on =>
          obtain ⟨d, hd⟩ := ih h hsignals
          refine ⟨d, ?_⟩
          unfold Netlist.driveGates
          simp only [hop, bind, Except.bind, hd]

/-- A bulb can be added and driven. -/
theorem Stocked.exists_addOutput (h : n.Stocked c) (hn : n.Buildable) (hname : name ∈ n.outputs)
    (i : Nat) : ∃ d, n.addOutput name i c = .ok d := by
  obtain ⟨driver, hdriver⟩ := hn.outputs name hname
  obtain ⟨hid, hframes, -⟩ := h.sourceOf driver
  have hsource := h.has_sourceOf (offers_of_resolve hdriver)
  have hfst := Circuit.add_fst (x := n.outputPart name i) (sourceOf driver c).2
    (Part.output name).id_ne_empty
  obtain ⟨hadded, hself, hothers, -⟩ := hframes.add (p := .output name)
    (n.wellFormed_outputPart name i) rfl ⟨hname, rfl⟩ (hframes.idle_output name)
  have hfeeds : n.Feeds (.output name) 0 driver := ⟨hname, rfl, hdriver⟩
  obtain ⟨k, d, hd⟩ := hadded.exists_connect hn hfeeds (hothers _ hsource) hself
  have hd' : ((sourceOf driver c).2.add (n.outputPart name i)).2.connect (sourceOf driver c).1
      ((sourceOf driver c).2.add (n.outputPart name i)).1 0 = .ok (k, d) := by
    rw [hid, hfst]
    exact hd
  refine ⟨d, ?_⟩
  unfold Netlist.addOutput
  simp only [hdriver, bind, Except.bind]
  unfold outputPart at hd'
  simp only [hd']
  rfl

/-- All bulbs can be added and driven. -/
theorem Stocked.exists_addOutputs {i : Nat} (h : n.Stocked c) (hn : n.Buildable)
    (hnames : ∀ name ∈ names, name ∈ n.outputs) : ∃ d, n.addOutputs names i c = .ok d := by
  induction names generalizing i c with
  | nil => exact ⟨c, rfl⟩
  | cons name names ih =>
      obtain ⟨hname, hnames⟩ := List.forall_mem_cons.1 hnames
      obtain ⟨b, hb⟩ := h.exists_addOutput hn hname i
      obtain ⟨hframes, hgrows, -⟩ := h.addOutput hname hb
      obtain ⟨d, hd⟩ := ih (h.grows hframes hgrows) hnames (i := i + 1)
      refine ⟨d, ?_⟩
      unfold Netlist.addOutputs
      simp only [hb, bind, Except.bind, hd]

/-- A netlist is built to the end if all that is asked for is driven and nothing comes before
itself. -/
theorem exists_realizes (hn : n.Buildable) : ∃ d, n.toCircuit = .ok d ∧ n.Realizes d := by
  have hbase := stocked_base n
  obtain ⟨c, hc⟩ := hbase.exists_driveGates hn fun _ hs => hs
  obtain ⟨hframes, hgrows, -⟩ := hbase.driveGates (fun _ hs => hs) hc
  obtain ⟨d, hd⟩ :=
    (hbase.grows hframes hgrows).exists_addOutputs (i := 0) hn fun _ hname => hname
  have hbuilt : n.toCircuit = .ok d := by
    unfold toCircuit
    simp only [hc, bind, Except.bind, hd]
  exact ⟨d, hbuilt, realizes_of_toCircuit hbuilt⟩

/-! ## What was built -/

/-- A driven slot is driven by the part that feeds it. -/
theorem Frames.driver_eq (h : n.Frames d) (hn : n.driven.Nodup) (hdriven : Driven d p slot)
    (hfeeds : n.Feeds p slot driver) :
    (d.driversOf p.id)[slot]? = some (some (partOf driver).id) := by
  obtain ⟨b, hb⟩ := Option.isSome_iff_exists.1 hdriven
  obtain ⟨driver', rfl, hfeeds'⟩ := h.feeds_part hb
  obtain rfl := feeds_unique hn hfeeds hfeeds'
  exact Option.join_eq_some_iff.1 hb

/-- What drives a slot is there. -/
theorem Frames.has_of_driver (h : n.Frames d) (hp : some p.id ∈ d.driversOf a) : Has d p := by
  obtain ⟨y, hy, -⟩ := h.wired.component?_driver (Circuit.mem_next_of_mem_driversOf hp)
  have hfound : d.plain.component p.id = some y.unplugged := congrArg (Option.map _) hy
  rw [Has, hfound]
  rfl

/-- A slot of a gate is driven by what its argument resolves to. -/
theorem Realizes.driver_gate (h : n.Realizes d) (hn : n.driven.Nodup) (hs : s ∈ n.signals)
    (hgate : IsGate s) {arg : String} (harg : s.args[slot]? = some arg)
    (hdriver : n.resolve arg = .ok driver) :
    (d.driversOf (gateId s.name))[slot]? = some (some (partOf driver).id) :=
  h.driver_eq hn (p := .gate s.name)
    (h.gateDriven s hs hgate slot (List.getElem?_eq_some_iff.1 harg).1)
    ⟨s, hs, rfl, hgate, arg, harg, hdriver⟩

/-- A bulb is driven by what its signal resolves to. -/
theorem Realizes.driver_output (h : n.Realizes d) (hn : n.driven.Nodup) (hname : name ∈ n.outputs)
    (hdriver : n.resolve name = .ok driver) :
    (d.driversOf (outputId name))[0]? = some (some (partOf driver).id) :=
  h.driver_eq hn (p := .output name) (h.outputDriven name hname) ⟨hname, rfl, hdriver⟩

end Netlist

end LogicCircuit
