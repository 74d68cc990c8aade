import LogicCircuit.Proofs.Circuit.Adding
import LogicCircuit.Proofs.Circuit.Objections
import LogicCircuit.Proofs.Netlist.Resolving

/-!
# Building the circuit of a netlist

A circuit that is built from a netlist consists of parts: a switch for an input, a gate for a
signal that is one, a bulb for an output and sources of constants. `Netlist.Frames` says that all
components are parts and that each slot is driven by what its signal resolves to; every step of
the building keeps it. In the end all parts are there and all slots are driven:
`realizes_of_toCircuit`.
-/

namespace LogicCircuit

namespace Netlist

/-! ## Parts -/

/-- What a component of the circuit of a netlist stands for. -/
inductive Part where
  | input (name : String)
  | gate (name : String)
  | output (name : String)
  | constant (on : Bool)

/-- The name of a part. -/
def Part.id : Part → ComponentId
  | input name => inputId name
  | gate name => gateId name
  | output name => outputId name
  | constant on => constantId on

/-- Different parts have different names. -/
theorem Part.id_injective : Function.Injective Part.id := by
  intro p q h
  have hchars : p.id.toList = q.id.toList := congrArg String.toList h
  cases p <;> cases q
  case input.input | gate.gate | output.output =>
    simpa [Part.id, inputId, gateId, outputId, String.append_right_inj] using h
  case constant.constant on on' =>
    cases on <;> cases on' <;> simp_all [Part.id, constantId]
  case input.constant on | gate.constant on | output.constant on | constant.input on _ |
      constant.gate on _ | constant.output on _ =>
    cases on <;> simp [Part.id, inputId, gateId, outputId, constantId] at hchars
  all_goals simp [Part.id, inputId, gateId, outputId] at hchars

theorem Part.id_ne_empty (p : Part) : p.id ≠ "" := by
  intro h
  have hchars := congrArg String.toList h
  cases p
  case constant on => cases on <;> simp [Part.id, constantId] at hchars
  all_goals simp [Part.id, inputId, gateId, outputId] at hchars

/-- The part that a driver is. -/
def partOf : Driver → Part
  | .input name => .input name
  | .gate name => .gate name
  | .constant on => .constant on

variable (n : Netlist)

/-- The kind of a part. -/
def PartKind : Part → Kind → Prop
  | .input name, k => name ∈ n.inputs ∧ k = .source (.ofKind .switch)
  | .gate name, k => ∃ s ∈ n.signals, s.name = name ∧ ∃ g, s.operation = .gate g ∧ k = .gate g
  | .output name, k => name ∈ n.outputs ∧ k = .sink (.ofKind .bulb)
  | .constant on, k => k = .source (.ofKind (if on then .high else .low))

/-- A driver drives a slot of a part: the argument of a gate or the signal of an output resolves
to it. -/
def Feeds : Part → (slot : Nat) → Driver → Prop
  | .gate name, slot, driver => ∃ s ∈ n.signals, s.name = name ∧ IsGate s ∧
      ∃ arg, s.args[slot]? = some arg ∧ n.resolve arg = .ok driver
  | .output name, slot, driver => name ∈ n.outputs ∧ slot = 0 ∧ n.resolve name = .ok driver
  | _, _, _ => False

/-- All components of a circuit are parts, and all slots are driven by what they should be. -/
structure Frames (c : Circuit) : Prop where
  wired : c.WellWired
  part : ∀ a x, c.plain.component a = some x → ∃ p : Part, a = p.id ∧ n.PartKind p x.kind
  feeds : ∀ a i b, c.plain.driver a i = some b →
    ∃ p driver, a = Part.id p ∧ b = (partOf driver).id ∧ n.Feeds p i driver

/-- A part is there. -/
def Has (c : Circuit) (p : Part) : Prop := (c.plain.component p.id).isSome

/-- A slot of a part is driven. -/
def Driven (c : Circuit) (p : Part) (slot : Nat) : Prop := (c.plain.driver p.id slot).isSome

/-- What is there stays, and what is driven stays driven. -/
structure Grows (c d : Circuit) : Prop where
  component : ∀ {p}, Has c p → Has d p
  driver : ∀ {p slot}, Driven c p slot → Driven d p slot

theorem Grows.refl (c : Circuit) : Grows c c := ⟨fun h => h, fun h => h⟩

theorem Grows.trans {b c d : Circuit} (hbc : Grows b c) (hcd : Grows c d) : Grows b d :=
  ⟨fun h => hcd.component (hbc.component h), fun h => hcd.driver (hbc.driver h)⟩

variable {n} {c d : Circuit} {p : Part} {x : Component} {s : Signal} {name : String}
  {names : List String} {slot : Nat} {driver : Driver}

theorem Frames.empty : n.Frames .empty where
  wired := .empty
  part _ _ hx := nomatch hx
  feeds _ _ _ hb := nomatch hb

/-- A part drives nothing while it is not there. -/
theorem Frames.idle_of_not_has (h : n.Frames c) (hp : ¬ Has c p) (a : ComponentId) (i : Nat) :
    c.plain.driver a i ≠ some p.id := by
  intro hdriver
  obtain ⟨k, w, hw, hsource, -, -⟩ := h.wired.plain_driver_iff.1 hdriver
  obtain ⟨s, hs, -⟩ := h.wired.source hw
  rw [hsource] at hs
  have hfound : c.plain.component p.id = some s.unplugged := congrArg (Option.map _) hs
  exact hp (by rw [Has, hfound]; rfl)

/-- What drives a slot of a part is what should. -/
theorem Frames.feeds_part (h : n.Frames c) {b : ComponentId}
    (hb : c.plain.driver p.id slot = some b) :
    ∃ driver, b = (partOf driver).id ∧ n.Feeds p slot driver := by
  obtain ⟨q, driver, hid, hb, hfeeds⟩ := h.feeds _ _ _ hb
  obtain rfl := Part.id_injective hid
  exact ⟨driver, hb, hfeeds⟩

/-- An output drives nothing. -/
theorem Frames.idle_output (h : n.Frames c) (name : String) (a : ComponentId) (i : Nat) :
    c.plain.driver a i ≠ some (Part.output name).id := by
  intro hdriver
  obtain ⟨q, driver, -, hid, -⟩ := h.feeds a i _ hdriver
  have hpart : Part.output name = partOf driver := Part.id_injective hid
  cases driver <;> cases hpart

/-! ## Adding parts -/

/-- A part that drives nothing can be added. -/
theorem Frames.add (h : n.Frames c) (hx : x.WellFormed) (hid : x.id = p.id)
    (hkind : n.PartKind p x.kind) (hidle : ∀ a i, c.plain.driver a i ≠ some p.id) :
    n.Frames (c.add x).2 ∧ Has (c.add x).2 p ∧ (∀ q, Has c q → Has (c.add x).2 q) ∧
      ∀ a i, (c.add x).2.plain.driver a i = if a = p.id then none else c.plain.driver a i := by
  have hne : x.id ≠ "" := hid ▸ p.id_ne_empty
  have hgiven : (c.add x).1 = p.id := (Circuit.add_fst c hne).trans hid
  have hcomponent := h.wired.component_add x
  rw [hgiven] at hcomponent
  have hdriver := h.wired.driver_add hne (by rwa [hid])
  rw [hid] at hdriver
  refine ⟨⟨h.wired.add hx, fun a y hy => ?_, fun a i b hb => ?_⟩, ?_, fun q hq => ?_, hdriver⟩
  · rw [hcomponent] at hy
    split at hy
    case isTrue ha =>
      obtain rfl := Option.some.inj hy
      exact ⟨p, ha, hkind⟩
    case isFalse => exact h.part a y hy
  · rw [hdriver] at hb
    split at hb
    · cases hb
    · exact h.feeds a i b hb
  · rw [Has, hcomponent, if_pos rfl]
    rfl
  · rw [Has, hcomponent]
    split
    · rfl
    · exact hq

/-- Parts can be added as long as nothing is driven. -/
theorem Frames.addAll (h : n.Frames c) (xs : List Component)
    (hnone : ∀ a i, c.plain.driver a i = none)
    (hxs : ∀ x ∈ xs, x.WellFormed ∧ ∃ p : Part, x.id = p.id ∧ n.PartKind p x.kind) :
    n.Frames (c.addAll xs) ∧ (∀ a i, (c.addAll xs).plain.driver a i = none) ∧
      ∀ p : Part, Has c p ∨ (∃ x ∈ xs, x.id = p.id) → Has (c.addAll xs) p := by
  induction xs generalizing c with
  | nil =>
      refine ⟨h, hnone, fun p hp => hp.elim (fun hp => hp) fun ⟨x, hx, _⟩ => ?_⟩
      cases hx
  | cons x xs ih =>
      obtain ⟨⟨hx, p, hid, hkind⟩, hxs⟩ := List.forall_mem_cons.1 hxs
      obtain ⟨hframes, hself, hothers, hdriver⟩ :=
        h.add hx hid hkind fun a i e => by rw [hnone] at e; cases e
      have hnone' : ∀ a i, (c.add x).2.plain.driver a i = none := fun a i => by
        rw [hdriver, hnone, ite_self]
      obtain ⟨hall, hdrivers, hfound⟩ := ih hframes hnone' hxs
      refine ⟨hall, hdrivers, fun q hq => hfound q ?_⟩
      rcases hq with hq | ⟨y, hy, hyq⟩
      · exact .inl (hothers q hq)
      · rcases List.mem_cons.1 hy with rfl | hy
        · exact .inl (Part.id_injective (hid.symm.trans hyq) ▸ hself)
        · exact .inr ⟨y, hy, hyq⟩

/-- The switch of an input. -/
def inputPart (name : String) (i : Nat) : Component :=
  ((Component.source .switch ⟨50, rowAt i⟩).withId (inputId name)).withLabel name

/-- The gate of a signal, if it is one. -/
def gatePart? (s : Signal) (i : Nat) : Option Component :=
  match s.operation with
  | .gate g => some (((Component.gate g ⟨columnAt (i / 10), rowAt (i % 10)⟩).withId
      (gateId s.name)).withLabel s.name)
  | _ => none

theorem addInputs_eq_addAll (n : Netlist) (c : Circuit) :
    n.addInputs c = c.addAll (n.inputs.zipIdx.map fun s => inputPart s.1 s.2) := by
  rw [Circuit.addAll, List.foldl_map]
  rfl

theorem addGates_eq_addAll (n : Netlist) (c : Circuit) :
    n.addGates c = c.addAll (n.signals.zipIdx.filterMap fun s => gatePart? s.1 s.2) := by
  rw [Circuit.addAll, List.foldl_filterMap]
  refine List.foldl_ext _ _ _ fun c s _ => ?_
  obtain ⟨⟨_, operation, _⟩, _⟩ := s
  cases operation <;> rfl

variable (n) in
/-- The parts of the inputs and of the gates are there. -/
structure Stocked (c : Circuit) : Prop extends n.Frames c where
  input : ∀ name ∈ n.inputs, Has c (.input name)
  gate : ∀ s ∈ n.signals, IsGate s → Has c (.gate s.name)

/-- What is there stays. -/
theorem Stocked.grows (h : n.Stocked c) (hd : n.Frames d) (hgrows : Grows c d) : n.Stocked d where
  toFrames := hd
  input name hname := hgrows.component (h.input name hname)
  gate s hs hgate := hgrows.component (h.gate s hs hgate)

/-- These parts are there before anything is driven. -/
theorem stocked_base (n : Netlist) : n.Stocked (n.addGates (n.addInputs .empty)) := by
  have hinputs := Frames.addAll (n := n) .empty (n.inputs.zipIdx.map fun s => inputPart s.1 s.2)
    (fun _ _ => rfl) fun x hx => by
      obtain ⟨s, hs, rfl⟩ := List.mem_map.1 hx
      refine ⟨((Component.wellFormed_source _ _).withId _).withLabel _, .input s.1, rfl, ?_, rfl⟩
      exact List.mem_of_getElem? (List.mem_zipIdx_iff_getElem?.1 hs)
  rw [← addInputs_eq_addAll] at hinputs
  obtain ⟨hframes, hnone, hfound⟩ := hinputs
  have hgates := hframes.addAll (n.signals.zipIdx.filterMap fun s => gatePart? s.1 s.2) hnone
    fun x hx => by
      obtain ⟨⟨s, i⟩, hs, hpart⟩ := List.mem_filterMap.1 hx
      have hmem := List.mem_of_getElem? (List.mem_zipIdx_iff_getElem?.1 hs)
      unfold gatePart? at hpart
      split at hpart
      case h_1 g hg =>
        obtain rfl := Option.some.inj hpart
        exact ⟨((Component.wellFormed_gate _ _).withId _).withLabel _, .gate s.name, rfl, s, hmem,
          rfl, g, hg, rfl⟩
      case h_2 => cases hpart
  rw [← addGates_eq_addAll] at hgates
  obtain ⟨hframes', -, hfound'⟩ := hgates
  refine ⟨hframes', fun name hname => hfound' _ (.inl (hfound _ (.inr ?_))),
    fun s hs ⟨g, hg⟩ => hfound' _ (.inr ?_)⟩
  · obtain ⟨i, hi⟩ := List.mem_iff_getElem?.1 hname
    exact ⟨inputPart name i,
      List.mem_map.2 ⟨(name, i), List.mem_zipIdx_iff_getElem?.2 hi, rfl⟩, rfl⟩
  · obtain ⟨i, hi⟩ := List.mem_iff_getElem?.1 hs
    have hpart : gatePart? s i = some (((Component.gate g
        ⟨columnAt (i / 10), rowAt (i % 10)⟩).withId (gateId s.name)).withLabel s.name) := by
      rw [gatePart?, hg]
    exact ⟨_, List.mem_filterMap.2 ⟨(s, i), List.mem_zipIdx_iff_getElem?.2 hi, hpart⟩, rfl⟩

/-- The source of a constant is added where it is first needed; any other driver is there. -/
theorem Frames.sourceOf (h : n.Frames c) (driver : Driver) :
    (sourceOf driver c).1 = (partOf driver).id ∧ n.Frames (sourceOf driver c).2 ∧
      Grows c (sourceOf driver c).2 ∧
      ∀ on, driver = .constant on → Has (sourceOf driver c).2 (.constant on) := by
  cases driver with
  | input name => exact ⟨rfl, h, .refl c, fun _ e => nomatch e⟩
  | gate name => exact ⟨rfl, h, .refl c, fun _ e => nomatch e⟩
  | constant on =>
      unfold Netlist.sourceOf
      dsimp only
      split
      case isTrue hfound =>
        refine ⟨rfl, h, .refl c, fun on' e => ?_⟩
        obtain rfl := Driver.constant.inj e
        show ((c.component? (constantId on)).map _).isSome
        rw [Option.isSome_map]
        exact hfound
      case isFalse hnew =>
        have hnone : c.component? (constantId on) = none := by
          simpa [Roster.contains, Circuit.component?] using hnew
        have hhas : ¬ Has c (.constant on) := by
          show ¬ ((c.component? (constantId on)).map _).isSome
          simp [hnone]
        obtain ⟨hframes, hself, hothers, hdriver⟩ := h.add (p := .constant on)
          (x := (Component.source (if on then .high else .low) ⟨50, 20⟩).withId (constantId on))
          ((Component.wellFormed_source _ _).withId _) rfl rfl (h.idle_of_not_has hhas)
        refine ⟨Circuit.add_fst c (Part.constant on).id_ne_empty, hframes,
          ⟨fun hq => hothers _ hq, fun {q slot} hq => ?_⟩, fun on' e => ?_⟩
        · rw [Driven, hdriver, if_neg]
          · exact hq
          · -- what is not there is not driven
            intro hid
            rw [Driven, hid] at hq
            have hdrivers : c.driversOf (Part.constant on).id = [] := by
              rw [Circuit.driversOf, show c.component? (Part.constant on).id = none from hnone]
            simp [Circuit.plain, hdrivers] at hq
        · obtain rfl := Driver.constant.inj e
          exact hself

/-! ## Driving slots -/

/-- A wire that is accepted drives its slot. -/
theorem Frames.connect (h : n.Frames c) (hfeeds : n.Feeds p slot driver) {k : WireId}
    (hd : c.connect (partOf driver).id p.id slot = .ok (k, d)) :
    n.Frames d ∧ Grows c d ∧ Driven d p slot := by
  have hplain := h.wired.plain_wireUp hd
  have hcomponent : d.plain.component = c.plain.component := by rw [hplain]; rfl
  have hdriver : ∀ a i, d.plain.driver a i =
      if a = p.id ∧ i = slot then some (partOf driver).id else c.plain.driver a i := fun a i => by
    rw [hplain]; rfl
  refine ⟨⟨h.wired.wireUp hd, fun a x hx => ?_, fun a i b hb => ?_⟩, ⟨fun {q} hq => ?_,
    fun {q j} hq => ?_⟩, ?_⟩
  · exact h.part a x (hcomponent ▸ hx)
  · rw [hdriver] at hb
    split at hb
    case isTrue hend => exact ⟨p, driver, hend.1, (Option.some.inj hb).symm, hend.2 ▸ hfeeds⟩
    case isFalse => exact h.feeds a i b hb
  · rwa [Has, hcomponent]
  · rw [Driven, hdriver]
    split
    · rfl
    · exact hq
  · rw [Driven, hdriver, if_pos ⟨rfl, rfl⟩]
    rfl

/-- A slot is driven by what its signal resolves to. -/
theorem Frames.drive (h : n.Frames c)
    (hfeeds : ∀ driver, n.resolve name = .ok driver → n.Feeds p slot driver)
    (hd : n.drive name p.id slot c = .ok d) : n.Frames d ∧ Grows c d ∧ Driven d p slot := by
  obtain ⟨driver, hdriver, hd⟩ := ok_of_bind_ok hd
  obtain ⟨hid, hframes, hgrows, -⟩ := h.sourceOf driver
  generalize Netlist.sourceOf driver c = r at hd hid hframes hgrows
  obtain ⟨source, b⟩ := r
  dsimp only at hd hid hframes hgrows
  subst hid
  split at hd
  · cases hd
  · rename_i k e hconnect
    obtain rfl := Except.ok.inj hd
    obtain ⟨he, hgrows', hslot⟩ := hframes.connect (hfeeds driver hdriver) hconnect
    exact ⟨he, hgrows.trans hgrows', hslot⟩

/-- The slots of a gate from some slot on are driven. -/
theorem Frames.driveAll (h : n.Frames c) (hs : s ∈ n.signals) (hgate : IsGate s)
    (hnames : s.args.drop slot = names)
    (hd : n.driveAll (gateId s.name) names slot c = .ok d) :
    n.Frames d ∧ Grows c d ∧ ∀ i, slot ≤ i → i < s.args.length → Driven d (.gate s.name) i := by
  induction names generalizing slot c with
  | nil =>
      obtain rfl := Except.ok.inj hd
      refine ⟨h, .refl c, fun i hle hlt => ?_⟩
      have hlength := List.drop_eq_nil_iff.1 hnames
      omega
  | cons name names ih =>
      obtain ⟨b, hb, hd⟩ := ok_of_bind_ok hd
      have harg : s.args[slot]? = some name := by
        rw [← List.head?_drop, hnames, List.head?_cons]
      have hrest : s.args.drop (slot + 1) = names := by
        rw [← List.tail_drop, hnames, List.tail_cons]
      obtain ⟨hframes, hgrows, hslot⟩ := h.drive (p := .gate s.name)
        (fun driver hdriver => ⟨s, hs, rfl, hgate, name, harg, hdriver⟩) hb
      obtain ⟨hframes', hgrows', hslots⟩ := ih hframes hrest hd
      refine ⟨hframes', hgrows.trans hgrows', fun i hle hlt => ?_⟩
      by_cases hi : i = slot
      · rw [hi]
        exact hgrows'.driver hslot
      · exact hslots i (by omega) hlt

/-- The slots of all gates among some signals are driven. -/
theorem Frames.driveGates {signals : List Signal} (h : n.Frames c)
    (hsignals : ∀ s ∈ signals, s ∈ n.signals) (hd : n.driveGates signals c = .ok d) :
    n.Frames d ∧ Grows c d ∧ ∀ s ∈ signals, IsGate s → ∀ i < s.args.length,
      Driven d (.gate s.name) i := by
  induction signals generalizing c with
  | nil =>
      obtain rfl := Except.ok.inj hd
      exact ⟨h, .refl c, fun s hs => nomatch hs⟩
  | cons s signals ih =>
      obtain ⟨hs, hsignals⟩ := List.forall_mem_cons.1 hsignals
      have hstep : ∃ b, n.Frames b ∧ Grows c b ∧ n.driveGates signals b = .ok d ∧
          (IsGate s → ∀ i < s.args.length, Driven b (.gate s.name) i) := by
        unfold Netlist.driveGates at hd
        split at hd
        case h_1 g hg =>
          obtain ⟨b, hb, hd⟩ := ok_of_bind_ok hd
          obtain ⟨hframes, hgrows, hslots⟩ := h.driveAll hs ⟨g, hg⟩ List.drop_zero hb
          exact ⟨b, hframes, hgrows, hd, fun _ i hlt => hslots i (Nat.zero_le i) hlt⟩
        case h_2 hother =>
          exact ⟨c, h, .refl c, hd, fun ⟨g, hg⟩ => absurd hg (hother g)⟩
      obtain ⟨b, hframes, hgrows, hd, hslots⟩ := hstep
      obtain ⟨hframes', hgrows', hrest⟩ := ih hframes hsignals hd
      refine ⟨hframes', hgrows.trans hgrows',
        List.forall_mem_cons.2 ⟨fun hgate i hlt => ?_, hrest⟩⟩
      exact hgrows'.driver (hslots hgate i hlt)

/-- The bulb of an output. -/
def outputPart (n : Netlist) (name : String) (i : Nat) : Component :=
  ((Component.sink .bulb ⟨columnAt (n.signals.length / 10 + 1), rowAt i⟩).withId
    (outputId name)).withLabel name

theorem wellFormed_outputPart (n : Netlist) (name : String) (i : Nat) :
    (n.outputPart name i).WellFormed :=
  ((Component.wellFormed_sink _ _).withId _).withLabel _

/-- A bulb is added and driven; one that was there before is replaced. -/
theorem Frames.addOutput {i : Nat} (h : n.Frames c) (hname : name ∈ n.outputs)
    (hd : n.addOutput name i c = .ok d) :
    n.Frames d ∧ Grows c d ∧ Has d (.output name) ∧ Driven d (.output name) 0 := by
  obtain ⟨driver, hdriver, hd⟩ := ok_of_bind_ok hd
  obtain ⟨hid, hframes, hgrows, -⟩ := h.sourceOf driver
  generalize Netlist.sourceOf driver c = r at hd hid hframes hgrows
  obtain ⟨source, b⟩ := r
  dsimp only at hd hid hframes hgrows
  subst hid
  have hbulb : b.add (n.outputPart name i) =
      ((Part.output name).id, (b.add (n.outputPart name i)).2) :=
    Prod.ext (Circuit.add_fst b (Part.output name).id_ne_empty) rfl
  obtain ⟨hadded, hself, hothers, hdrivers⟩ := hframes.add (p := .output name)
    (n.wellFormed_outputPart name i) rfl ⟨hname, rfl⟩ (hframes.idle_output name)
  rw [show b.add (((Component.sink .bulb ⟨columnAt (n.signals.length / 10 + 1), rowAt i⟩).withId
    (outputId name)).withLabel name) = _ from hbulb] at hd
  dsimp only at hd
  split at hd
  · cases hd
  · rename_i k e hconnect
    obtain rfl := Except.ok.inj hd
    have hfeeds : n.Feeds (.output name) 0 driver := ⟨hname, rfl, hdriver⟩
    obtain ⟨he, hgrows', hslot⟩ := hadded.connect hfeeds hconnect
    refine ⟨he, ⟨fun hq => hgrows'.component (hothers _ (hgrows.component hq)),
      fun {q j} hq => ?_⟩, hgrows'.component hself, hslot⟩
    by_cases hqname : q = .output name
    · -- the only slot of the bulb is driven again
      subst hqname
      obtain ⟨source, hsource⟩ := Option.isSome_iff_exists.1 hq
      obtain ⟨_, -, -, rfl, -⟩ := h.feeds_part hsource
      exact hslot
    · refine hgrows'.driver ?_
      rw [Driven, hdrivers, if_neg fun hid => hqname (Part.id_injective hid)]
      exact hgrows.driver hq

/-- All bulbs are added and driven. -/
theorem Frames.addOutputs {i : Nat} (h : n.Frames c) (hnames : ∀ name ∈ names, name ∈ n.outputs)
    (hd : n.addOutputs names i c = .ok d) :
    n.Frames d ∧ Grows c d ∧ ∀ name ∈ names, Has d (.output name) ∧
        Driven d (.output name) 0 := by
  induction names generalizing i c with
  | nil =>
      obtain rfl := Except.ok.inj hd
      exact ⟨h, .refl c, fun s hs => nomatch hs⟩
  | cons name names ih =>
      obtain ⟨hname, hnames⟩ := List.forall_mem_cons.1 hnames
      obtain ⟨b, hb, hd⟩ := ok_of_bind_ok hd
      obtain ⟨hframes, hgrows, hhas, hslot⟩ := h.addOutput hname hb
      obtain ⟨hframes', hgrows', hrest⟩ := ih hframes hnames hd
      exact ⟨hframes', hgrows.trans hgrows', List.forall_mem_cons.2
        ⟨⟨hgrows'.component hhas, hgrows'.driver hslot⟩, hrest⟩⟩

/-! ## The whole circuit -/

variable (n) in
/-- A circuit has all parts of a netlist, and all their slots are driven by what they should be.
-/
structure Realizes (d : Circuit) : Prop extends n.Stocked d where
  output : ∀ name ∈ n.outputs, Has d (.output name)
  gateDriven : ∀ s ∈ n.signals, IsGate s → ∀ i < s.args.length, Driven d (.gate s.name) i
  outputDriven : ∀ name ∈ n.outputs, Driven d (.output name) 0

/-- The circuit of a netlist realizes it. -/
theorem realizes_of_toCircuit (h : n.toCircuit = .ok d) : n.Realizes d := by
  obtain ⟨c, hc, hd⟩ := ok_of_bind_ok h
  have hbase := stocked_base n
  obtain ⟨hframes, hgrows, hslots⟩ := hbase.driveGates (fun _ hs => hs) hc
  obtain ⟨hframes', hgrows', houtputs⟩ := hframes.addOutputs (fun _ hname => hname) hd
  exact
    { toStocked := hbase.grows hframes' (hgrows.trans hgrows')
      output := fun name hname => (houtputs name hname).1
      gateDriven := fun s hs hgate i hlt => hgrows'.driver (hslots s hs hgate i hlt)
      outputDriven := fun name hname => (houtputs name hname).2 }

/-- A text is read by way of its netlist. -/
theorem ofNetlist_eq {s : List UInt8} {t : NetlistText} (ht : NetlistText.ofBytes s = .ok t)
    (hn : ofText t = .ok n) : Circuit.ofNetlist s = n.toCircuit := by
  rw [Circuit.ofNetlist, ht]
  show (ofText t >>= toCircuit) = _
  rw [hn]
  rfl

end Netlist

end LogicCircuit
