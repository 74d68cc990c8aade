import LogicCircuit.Proofs.Circuit.Edges
import LogicCircuit.Proofs.Netlist.Reading

/-!
# The netlist of a circuit

`Netlist.ofCircuit` is the netlist that the text of a circuit should say: sources that vary are
inputs, labelled constants and gates are signals, and each slot of a sink is an output that
buffers what drives it. The text has one line for each of them (`toList_text`). It says the
netlist only if all names in it are tokens, and that netlist means the circuit only if no name is
one of those that stand for constants: `Netlist.Legible`. Then the netlist is read back:
`read_toNetlist`.
-/

namespace LogicCircuit

/-- The operation of a component that is written as a signal. -/
def Kind.operation : Kind → Operation
  | gate g => .gate g
  | source ⟨.high, _⟩ => .constant true
  | _ => .constant false

namespace Netlist

open Circuit (mem_gates_iff mem_sources_iff)

/-- A source whose level may change. -/
def varies (x : Component) : Bool := !x.kind.source?.any (·.kind.isConstant)

/-- A constant that is written under a name of its own. -/
def isNamedConstant (x : Component) : Bool := !varies x && x.label.isSome

/-- The components that are written as signals. -/
def written (c : Circuit) : List Component := c.sources.filter isNamedConstant ++ c.gates

/-- The components that are written under names of their own. -/
def named (c : Circuit) : List Component := c.sources.filter varies ++ written c

/-- The signal of a component. -/
def componentSignal (c : Circuit) (x : Component) : Signal :=
  ⟨signalOf x, x.kind.operation, (c.driversOf x.id).map (driverSignal c)⟩

/-- The signal of an output, given with what drives it. -/
def bufferSignal (o : String × String) : Signal := ⟨o.1, .buffer, [o.2]⟩

/-- The netlist that is written for a circuit. -/
def ofCircuit (c : Circuit) : Netlist where
  inputs := (c.sources.filter varies).map signalOf
  outputs := (allOutputs c).map (·.1)
  signals := (written c).map (componentSignal c) ++ (allOutputs c).map bufferSignal

/-- Every name that is written for a signal of its own can stand in a line, and none is a name
that stands for a constant. -/
def Legible (c : Circuit) : Prop := ∀ name ∈ (ofCircuit c).driven, name ∉ ["", "gnd", "vdd"]

instance (c : Circuit) : Decidable (Legible c) := by
  unfold Legible
  infer_instance

variable {c : Circuit} {x : Component} {id : ComponentId} {name : String} {text : String}

/-! ## The text -/

theorem toList_headerText (c : Circuit) : (headerText c).toList =
    (["# .bench (ISCAS) file".toList, "# Generated by boolsim".toList] ++
      (ofCircuit c).inputs.map (declarationLine "INPUT") ++ [[]]).flatMap (· ++ ['\n']) := by
  have hfirst : "# .bench (ISCAS) file\n# Generated by boolsim\n".toList =
      "# .bench (ISCAS) file".toList ++ ['\n'] ++
        ("# Generated by boolsim".toList ++ ['\n']) := by
    decide +kernel
  have hinputs : (String.join ((c.sources.filter varies).map fun x =>
        "INPUT(" ++ signalOf x ++ ")\n")).toList =
      ((ofCircuit c).inputs.map (declarationLine "INPUT")).flatMap (· ++ ['\n']) := by
    rw [String.toList_join, ofCircuit]
    simp [List.flatMap_map, declarationLine]
  show (_ ++ String.join ((c.sources.filter varies).map _) ++ _).toList = _
  rw [String.toList_append, String.toList_append, hinputs, hfirst]
  simp

/-- Where a text is empty for all elements that a filter drops, the others suffice. -/
theorem flatMap_filter_of_nil {α β : Type} {p : α → Bool} {f : α → List β} {xs : List α}
    (h : ∀ x ∈ xs, p x = false → f x = []) : xs.flatMap f = (xs.filter p).flatMap f := by
  induction xs with
  | nil => rfl
  | cons x xs ih =>
      obtain ⟨hx, hxs⟩ := List.forall_mem_cons.1 h
      cases hp : p x with
      | false => rw [List.flatMap_cons, hx hp, List.filter_cons_of_neg (by simp [hp]), ih hxs,
          List.nil_append]
      | true => rw [List.flatMap_cons, List.filter_cons_of_pos hp, List.flatMap_cons, ih hxs]

/-- Only constants with names of their own have statements. -/
theorem toList_constantText (hx : x ∈ c.sources) : (constantText x).toList =
    if isNamedConstant x then signalLine (componentSignal c x) ++ ['\n'] else [] := by
  obtain ⟨-, ⟨kind, level⟩, hk⟩ := mem_sources_iff.1 hx
  cases hl : x.label <;> cases kind <;>
    simp [constantText, isNamedConstant, varies, hk, hl, Kind.source?, SourceKind.isConstant,
      signalLine, componentSignal, Kind.operation, constantLine]

theorem toList_gateText (hx : x ∈ c.gates) :
    (gateText c x).toList = signalLine (componentSignal c x) ++ ['\n'] := by
  obtain ⟨-, g, hk⟩ := mem_gates_iff.1 hx
  simp [gateText, signalLine, componentSignal, hk, Kind.operation, Kind.subtype, operationLine]

theorem toList_bodyText (c : Circuit) : (bodyText c).toList =
    ((ofCircuit c).outputs.map (declarationLine "OUTPUT") ++ [[]] ++
      (ofCircuit c).signals.map signalLine).flatMap (· ++ ['\n']) := by
  have houtputs : (String.join ((allOutputs c).map fun o => s!"OUTPUT({o.1})\n")).toList =
      ((ofCircuit c).outputs.map (declarationLine "OUTPUT")).flatMap (· ++ ['\n']) := by
    rw [String.toList_join, List.flatMap_map, ofCircuit, List.map_map, List.flatMap_map]
    refine List.flatMap_congr fun o _ => ?_
    show ("OUTPUT(" ++ o.1 ++ ")\n").toList = declarationLine "OUTPUT" o.1 ++ ['\n']
    simp [declarationLine]
  have hconstants : (String.join (c.sources.map constantText)).toList =
      ((c.sources.filter isNamedConstant).map fun x =>
        signalLine (componentSignal c x)).flatMap (· ++ ['\n']) := by
    have hdropped : ∀ x ∈ c.sources, isNamedConstant x = false → (constantText x).toList = [] :=
      fun x hx hp => by rw [toList_constantText hx, hp]; rfl
    rw [String.toList_join, List.flatMap_map, List.flatMap_map, flatMap_filter_of_nil hdropped]
    refine List.flatMap_congr fun x hx => ?_
    obtain ⟨hx, hp⟩ := List.mem_filter.1 hx
    rw [toList_constantText hx, if_pos hp]
  have hgates : (String.join (c.gates.map (gateText c))).toList =
      (c.gates.map fun x => signalLine (componentSignal c x)).flatMap (· ++ ['\n']) := by
    rw [String.toList_join, List.flatMap_map, List.flatMap_map]
    exact List.flatMap_congr fun x hx => toList_gateText hx
  have hbuffers : (String.join ((allOutputs c).map fun o => s!"{o.1} = BUF({o.2})\n")).toList =
      ((allOutputs c).map fun o => signalLine (bufferSignal o)).flatMap (· ++ ['\n']) := by
    rw [String.toList_join, List.flatMap_map, List.flatMap_map]
    refine List.flatMap_congr fun o _ => ?_
    have hargs : ", ".intercalate [o.2] = o.2 := rfl
    show (o.1 ++ " = BUF(" ++ o.2 ++ ")\n").toList = operationLine o.1 "BUF" [o.2] ++ ['\n']
    simp [operationLine, hargs]
  rw [bodyText]
  simp only [String.toList_append, houtputs, hconstants, hgates, hbuffers]
  simp [ofCircuit, written, Function.comp_def]

/-- The text of a circuit consists of the lines of its netlist. -/
theorem toList_text (c : Circuit) :
    (headerText c ++ bodyText c).toList = (ofCircuit c).textLines.flatMap (· ++ ['\n']) := by
  rw [String.toList_append, toList_headerText, toList_bodyText, ← List.flatMap_append, textLines]
  simp only [List.append_assoc]

/-! ## Names -/

theorem not_breaksName_of_isDigit {ch : Char} (h : ch.isDigit) : breaksName ch = false := by
  have hrange : 48 ≤ ch.toNat ∧ ch.toNat ≤ 57 := by
    simp only [Char.isDigit, Bool.and_eq_true, decide_eq_true_eq] at h
    exact ⟨UInt32.le_iff_toNat_le.1 h.1, UInt32.le_iff_toNat_le.1 h.2⟩
  have hmarks : ch ∉ ['=', '(', ')', ',', '#'] := by
    intro hmem
    simp only [List.mem_cons, List.not_mem_nil, or_false] at hmem
    rcases hmem with rfl | rfl | rfl | rfl | rfl <;> revert hrange <;> decide
  simp only [breaksName, hmarks, Text.isBlank, Text.blankRanges]
  simp
  omega

/-- No character of a signal ends it. -/
theorem plain_signalName (name : String) :
    ∀ ch ∈ (signalName name).toList, breaksName ch = false := by
  intro ch hch
  rw [signalName, String.toList_ofList] at hch
  obtain ⟨a, -, rfl⟩ := List.mem_map.1 hch
  split
  · rfl
  · simpa using ‹¬ breaksName a = true›

theorem plain_signalOf (x : Component) : ∀ ch ∈ (signalOf x).toList, breaksName ch = false := by
  unfold signalOf
  split
  · cases x.label with
    | none => exact (isToken_constant true).2
    | some label => exact plain_signalName label
  · cases x.label with
    | none => exact (isToken_constant false).2
    | some label => exact plain_signalName label
  · exact plain_signalName _
  · exact plain_signalName _

/-- What an output is named after and what drives it. -/
theorem mem_allOutputs_iff {o : String × String} : o ∈ allOutputs c ↔
    ∃ x ∈ c.sinks, ∃ (slot : Nat) (driver : Option ComponentId),
      (c.driversOf x.id)[slot]? = some driver ∧
        o = (if 1 < x.arity then s!"{signalName x.displayName}_{slot}"
          else signalName x.displayName, driverSignal c driver) := by
  simp only [allOutputs, outputsOf, List.mem_flatMap, List.mem_map, Prod.exists,
    List.mem_zipIdx_iff_getElem?]
  grind

theorem plain_output {o : String × String} (ho : o ∈ allOutputs c) :
    ∀ ch ∈ o.1.toList, breaksName ch = false := by
  obtain ⟨x, -, slot, driver, -, rfl⟩ := mem_allOutputs_iff.1 ho
  dsimp only
  split
  · intro ch hch
    have htext : (s!"{signalName x.displayName}_{slot}").toList =
        (signalName x.displayName).toList ++ '_' :: Nat.toDigits 10 slot := by
      show (signalName x.displayName ++ "_" ++ slot.repr).toList = _
      simp [Nat.toList_repr]
    rw [htext] at hch
    rcases List.mem_append.1 hch with hch | hch
    · exact plain_signalName _ ch hch
    · rcases List.mem_cons.1 hch with rfl | hch
      · decide
      · exact not_breaksName_of_isDigit (Nat.isDigit_of_mem_toDigits (by decide) (by decide) hch)
  · exact plain_signalName _

/-- The names that are driven are those of components and those of outputs. -/
theorem driven_ofCircuit (c : Circuit) :
    (ofCircuit c).driven = (named c).map signalOf ++ (allOutputs c).map (·.1) := by
  simp [driven, ofCircuit, named, componentSignal, bufferSignal, Function.comp_def]

theorem isToken_of_mem_driven (hlegible : Legible c) (hname : name ∈ (ofCircuit c).driven) :
    IsToken name := by
  refine ⟨fun hempty => hlegible name hname (by simp [hempty]), ?_⟩
  rw [driven_ofCircuit, List.mem_append] at hname
  rcases hname with hname | hname
  · obtain ⟨x, -, rfl⟩ := List.mem_map.1 hname
    exact plain_signalOf x
  · obtain ⟨o, ho, rfl⟩ := List.mem_map.1 hname
    exact plain_output ho

/-- Whatever is no sink has a name of its own or is a constant under the name that stands for it.
-/
theorem named_or_default (hx : c.component? id = some x) (hsink : ¬ x.kind.isSink) :
    x ∈ named c ∨ ∃ on, x.kind.operation = .constant on ∧ varies x = false ∧
      signalOf x = if on then "vdd" else "gnd" := by
  have hid : x.id = id := Roster.name_of_get? hx
  rw [← hid] at hx
  cases hk : x.kind with
  | sink s => exact absurd (by rw [hk]; rfl) hsink
  | gate g =>
      have hgate := mem_gates_iff.2 ⟨hx, g, hk⟩
      exact .inl (List.mem_append_right _ (List.mem_append_right _ hgate))
  | source s =>
      have hsource := mem_sources_iff.2 ⟨hx, s, hk⟩
      by_cases hvaries : varies x
      · exact .inl (List.mem_append_left _ (List.mem_filter.2 ⟨hsource, hvaries⟩))
      by_cases hlabel : x.label.isSome
      · have hnamed : isNamedConstant x := by simp [isNamedConstant, hvaries, hlabel]
        exact .inl (List.mem_append_right _ (List.mem_append_left _
          (List.mem_filter.2 ⟨hsource, hnamed⟩)))
      have hnone : x.label = none := by simpa using hlabel
      have hconstant : varies x = false := by simpa using hvaries
      obtain ⟨kind, level⟩ := s
      cases kind <;> simp [varies, hk, Kind.source?, SourceKind.isConstant] at hvaries
      case high => exact .inr ⟨true, rfl, hconstant, by simp [signalOf, hk, hnone]⟩
      case low => exact .inr ⟨false, rfl, hconstant, by simp [signalOf, hk, hnone]⟩

/-- What drives a slot is written as a token. -/
theorem isToken_driverSignal (hwired : c.WellWired) (hlegible : Legible c)
    {driver : Option ComponentId} (hdriver : driver ∈ c.driversOf id) :
    IsToken (driverSignal c driver) := by
  cases driver with
  | none => exact isToken_constant false
  | some a =>
      obtain ⟨y, hy, hsink⟩ :=
        hwired.component?_driver (Circuit.mem_next_of_mem_driversOf hdriver)
      have hsignal : driverSignal c (some a) = signalOf y := by
        rw [driverSignal, Option.bind_some, hy]
        rfl
      rw [hsignal]
      rcases named_or_default hy hsink with hmem | ⟨on, -, -, hname⟩
      · refine isToken_of_mem_driven hlegible ?_
        rw [driven_ofCircuit]
        exact List.mem_append_left _ (List.mem_map_of_mem hmem)
      · rw [hname]
        exact isToken_constant on

/-! ## Reading back -/

/-- A text is written unless a name is claimed twice. -/
theorem text_of_toNetlist (h : c.toNetlist = .ok text) : text = headerText c ++ bodyText c ∧
    repeated? [] (claimed c) = none ∧
      repeated? (claimed c) ((allOutputs c).map (·.1)) = none := by
  unfold Circuit.toNetlist write at h
  cases hclaimed : repeated? [] (claimed c) with
  | some name => rw [hclaimed] at h; cases h
  | none =>
      cases houtputs : repeated? (claimed c) ((allOutputs c).map (·.1)) with
      | some name => rw [hclaimed, houtputs] at h; cases h
      | none =>
          rw [hclaimed, houtputs] at h
          exact ⟨(Except.ok.inj h).symm, rfl, rfl⟩

theorem nodup_named (c : Circuit) : (named c).Nodup := by
  have hentries : c.components.entries.Nodup := (Circuit.nodup_ids c).of_map
  have hsources : c.sources.Nodup := hentries.filter _
  have hgates : c.gates.Nodup := hentries.filter _
  have hapart : ∀ x ∈ c.sources, x ∉ c.gates := fun x hx hgate => by
    obtain ⟨-, s, hk⟩ := mem_sources_iff.1 hx
    obtain ⟨-, g, hk'⟩ := mem_gates_iff.1 hgate
    rw [hk] at hk'
    cases hk'
  have hwritten : (written c).Nodup := (hsources.filter _).append hgates fun x hx =>
    hapart x (List.mem_filter.1 hx).1
  refine (hsources.filter _).append hwritten fun x hx hmem => ?_
  obtain ⟨hsource, hvaries⟩ := List.mem_filter.1 hx
  rcases List.mem_append.1 hmem with hconstant | hgate
  · have hconstant := (List.mem_filter.1 hconstant).2
    simp [isNamedConstant, hvaries] at hconstant
  · exact hapart x hsource hgate

theorem component?_of_named (hx : x ∈ named c) : c.component? x.id = some x := by
  rcases List.mem_append.1 hx with hx | hx
  · exact (mem_sources_iff.1 (List.mem_filter.1 hx).1).1
  · rcases List.mem_append.1 hx with hx | hx
    · exact (mem_sources_iff.1 (List.mem_filter.1 hx).1).1
    · exact (mem_gates_iff.1 hx).1

theorem mem_driven_of_named (hx : x ∈ named c) : signalOf x ∈ (ofCircuit c).driven := by
  rw [driven_ofCircuit]
  exact List.mem_append_left _ (List.mem_map_of_mem hx)

/-- A component with a name of its own claims it, since the name stands for no constant. -/
theorem claimsSignal_of_named (hlegible : Legible c) (hx : x ∈ named c) : claimsSignal x := by
  have hname := hlegible _ (mem_driven_of_named hx)
  simp only [List.mem_cons, List.not_mem_nil, or_false, not_or] at hname
  simp [claimsSignal, hname.2.1, hname.2.2]

/-- No name of a text is driven twice. -/
theorem nodup_driven (hlegible : Legible c) (h : c.toNetlist = .ok text) :
    (ofCircuit c).driven.Nodup := by
  obtain ⟨-, hclaimed, houtputs⟩ := text_of_toNetlist h
  obtain ⟨hclaimed, -⟩ := repeated?_eq_none_iff.1 hclaimed
  obtain ⟨houtputs, hnew⟩ := repeated?_eq_none_iff.1 houtputs
  have hfilter : ∀ x ∈ named c, x ∈ c.components.entries.filter claimsSignal := fun x hx =>
    List.mem_filter.2
      ⟨Roster.mem_entries_iff.2 (component?_of_named hx), claimsSignal_of_named hlegible hx⟩
  rw [driven_ofCircuit]
  refine List.Nodup.append ?_ houtputs fun name hname hout => ?_
  · exact (nodup_named c).map_on fun x hx y hy hxy =>
      List.inj_on_of_nodup_map hclaimed (hfilter x hx) (hfilter y hy) hxy
  · obtain ⟨x, hx, rfl⟩ := List.mem_map.1 hname
    exact hnew _ hout (List.mem_map_of_mem (hfilter x hx))

/-- A signal of the netlist is that of a component or buffers what drives an output. -/
theorem mem_signals_iff {s : Signal} : s ∈ (ofCircuit c).signals ↔
    (∃ x ∈ written c, componentSignal c x = s) ∨ ∃ o ∈ allOutputs c, bufferSignal o = s := by
  rw [ofCircuit, List.mem_append, List.mem_map, List.mem_map]

/-- The operation of a component has as many arguments as the component has slots. -/
theorem arity_of_written (hx : x ∈ written c) : x.kind.arity = x.kind.operation.arity := by
  rcases List.mem_append.1 hx with hx | hx
  · obtain ⟨-, ⟨kind, level⟩, hk⟩ := mem_sources_iff.1 (List.mem_filter.1 hx).1
    rw [hk]
    cases kind <;> rfl
  · obtain ⟨-, g, hk⟩ := mem_gates_iff.1 hx
    rw [hk]
    rfl

/-- Each signal has as many arguments as its operation. -/
theorem arity_ofCircuit (hwired : c.WellWired) :
    ∀ s ∈ (ofCircuit c).signals, s.args.length = s.operation.arity := by
  intro s hs
  rcases mem_signals_iff.1 hs with ⟨x, hx, rfl⟩ | ⟨o, -, rfl⟩
  · have hfound := component?_of_named (List.mem_append_right _ hx)
    show ((c.driversOf x.id).map (driverSignal c)).length = x.kind.operation.arity
    rw [List.length_map, hwired.length_driversOf hfound, arity_of_written hx]
  · rfl

/-- All names of a circuit with legible names can stand in a line. -/
theorem spelled_ofCircuit (hwired : c.WellWired) (hlegible : Legible c) :
    (ofCircuit c).Spelled where
  driven _ hname := isToken_of_mem_driven hlegible hname
  outputs name hname := by
    refine isToken_of_mem_driven hlegible ?_
    rw [driven_ofCircuit]
    exact List.mem_append_right _ hname
  args s hs arg harg := by
    rcases mem_signals_iff.1 hs with ⟨x, -, rfl⟩ | ⟨o, ho, rfl⟩
    · obtain ⟨driver, hdriver, rfl⟩ := List.mem_map.1 harg
      exact isToken_driverSignal hwired hlegible hdriver
    · obtain ⟨x, -, slot, driver, hdriver, rfl⟩ := mem_allOutputs_iff.1 ho
      obtain rfl := List.mem_singleton.1 harg
      exact isToken_driverSignal hwired hlegible (List.mem_of_getElem? hdriver)
  arity := arity_ofCircuit hwired

/-- The text of a circuit with legible names is read as its netlist. -/
theorem read_toNetlist (hwired : c.WellWired) (hlegible : Legible c)
    (h : c.toNetlist = .ok text) :
    (NetlistText.ofBytes text.toUTF8.toList >>= Netlist.ofText) = .ok (ofCircuit c) := by
  obtain ⟨rfl, -⟩ := text_of_toNetlist h
  exact (spelled_ofCircuit hwired hlegible).read_text (toList_text c) (nodup_driven hlegible h)

end Netlist

end LogicCircuit
