import LogicCircuit.Proofs.Circuit.Acyclicity
import LogicCircuit.Proofs.Expr.RoundTrip
import LogicCircuit.Proofs.Netlist.Meaning
import LogicCircuit.Proofs.Netlist.Values

/-!
# Expressions as netlists

In the text of a built circuit every component is called after its role (`signalOf_of_fits`), and
no two roles have one signal, as long as the variables have names that can be written. So the text
is written, and its netlist is read back (`Realizes.exists_text`). In this netlist the signal of a
component means the value of the expression that is read off the component, by induction on the
expression (`Realizes.means_of_readsAs`). The bulb that is read back shows what its signal means:
`netlist_of_expression`.
-/

namespace LogicCircuit

namespace Netlist

/-- A name without characters that end it stays as it is. -/
theorem signalName_eq_self {name : String} (h : ∀ ch ∈ name.toList, breaksName ch = false) :
    signalName name = name := by
  have hmap : name.toList.map (fun ch => if breaksName ch then '_' else ch) = name.toList :=
    (List.map_congr_left fun ch hch => by rw [h ch hch]; rfl).trans (List.map_id _)
  rw [signalName, hmap, String.ofList_toList]

theorem not_breaksName_of_isAlpha {ch : Char} (h : ch.isAlpha) : breaksName ch = false := by
  have hmarks : ch ∉ ['=', '(', ')', ',', '#'] := by
    intro hmem
    simp only [List.mem_cons, List.not_mem_nil, or_false] at hmem
    rcases hmem with rfl | rfl | rfl | rfl | rfl <;> revert h <;> decide
  simp [breaksName, isBlank_eq_false_of_isAlpha h, hmarks]

end Netlist

namespace Synthesis

open Netlist (signalName signalOf driverSignal ofCircuit)

variable {e f : Expr} {root id : ComponentId} {c d : Circuit} {x : Component} {r t : Role}
  {names : List String} {count : Nat} {v : String}

/-! ## Signals -/

/-- A name that can be written is a signal of its own. -/
theorem signalName_of_isName (hv : IsName v) : signalName v = v := by
  obtain ⟨ch, tail, heq, hch, htail⟩ := exists_cons_of_isCapitalWord hv.1
  refine Netlist.signalName_eq_self fun x hx => ?_
  rw [heq] at hx
  rcases List.mem_cons.1 hx with rfl | hx
  · exact Netlist.not_breaksName_of_isAlpha hch
  · rcases Bool.or_eq_true_iff.1 (htail x hx) with halpha | hdigit
    · exact Netlist.not_breaksName_of_isAlpha halpha
    · exact Netlist.not_breaksName_of_isDigit hdigit

theorem toList_name_gate (n : Nat) :
    (Role.gate n).name.toList = "gate-".toList ++ Nat.toDigits 10 n := by
  show ("gate-" ++ n.repr).toList = _
  rw [String.toList_append, Nat.toList_repr]

theorem signalName_gate (n : Nat) : signalName (Role.gate n).name = (Role.gate n).name := by
  have hprefix : Netlist.IsToken "gate-" := by decide +kernel
  refine Netlist.signalName_eq_self fun ch hch => ?_
  rw [toList_name_gate] at hch
  rcases List.mem_append.1 hch with hch | hch
  · exact hprefix.2 ch hch
  · exact Netlist.not_breaksName_of_isDigit
      (Nat.isDigit_of_mem_toDigits (by decide) (by decide) hch)

/-- The signal of a component in the text of its circuit. -/
def Role.signal : Role → String
  | switch v => v
  | constant on => if on then "vdd" else "gnd"
  | r => r.name

/-- A component is called after its role. -/
theorem signalOf_of_fits (hfits : r.Fits names count x) (hid : x.id = r.name)
    (hnames : ∀ v ∈ names, IsName v) : signalOf x = r.signal := by
  cases r with
  | switch v =>
      obtain ⟨hv, ⟨level, hk⟩, hlabel⟩ := hfits
      have hdisplay : x.displayName = v := by rw [Component.displayName, hlabel]; rfl
      rw [signalOf, hk]
      exact (congrArg signalName hdisplay).trans (signalName_of_isName (hnames v hv))
  | constant on =>
      obtain ⟨hk, hlabel⟩ := hfits
      rw [signalOf, hk, hlabel]
      cases on <;> rfl
  | gate n =>
      obtain ⟨-, g, hk⟩ := hfits
      rw [signalOf, hk, hid]
      exact signalName_gate n
  | output =>
      have hk : x.kind = .sink (.ofKind .bulb) := hfits
      have hname : signalName outputName = outputName := by decide +kernel
      rw [signalOf, hk, hid]
      exact hname

/-- Only the signal of a switch starts with a capital. -/
theorem exists_head_signal (hr : ∀ v, r ≠ .switch v) :
    ∃ ch tail, r.signal.toList = ch :: tail ∧ ch.isUpper = false := by
  cases r with
  | switch v => exact absurd rfl (hr v)
  | constant on => cases on <;> exact ⟨_, _, rfl, rfl⟩
  | gate n => exact ⟨'g', _, toList_name_gate n, rfl⟩
  | output => exact ⟨'o', _, rfl, rfl⟩

/-- A name that can be written is the signal of no gate, constant or bulb. -/
theorem ne_signal_of_isName (hv : IsName v) (hr : ∀ v, r ≠ .switch v) : v ≠ r.signal := by
  rintro rfl
  obtain ⟨ch, tail, heq, hlower⟩ := exists_head_signal hr
  have hword := hv.1
  rw [heq, isCapitalWord, hlower] at hword
  cases hword

/-- Different roles have different signals. -/
theorem signal_injective (hr : ∀ v, r = .switch v → IsName v) (ht : ∀ v, t = .switch v → IsName v)
    (h : r.signal = t.signal) : r = t := by
  have hchars : r.signal.toList = t.signal.toList := congrArg String.toList h
  cases r with
  | switch v =>
      cases t with
      | switch w => exact congrArg Role.switch h
      | constant | gate | output => exact absurd h (ne_signal_of_isName (hr v rfl) nofun)
  | constant on =>
      cases t with
      | switch w => exact absurd h.symm (ne_signal_of_isName (ht w rfl) nofun)
      | constant on' =>
          have hall : ∀ on on' : Bool, (Role.constant on).signal = (Role.constant on').signal →
              on = on' := by decide
          rw [hall on on' h]
      | gate n =>
          rw [show (Role.gate n).signal = (Role.gate n).name from rfl, toList_name_gate] at hchars
          cases on <;> simp [Role.signal] at hchars
      | output => cases on <;> exact absurd h (by decide)
  | gate n =>
      cases t with
      | switch w => exact absurd h.symm (ne_signal_of_isName (ht w rfl) nofun)
      | constant on =>
          rw [show (Role.gate n).signal = (Role.gate n).name from rfl, toList_name_gate] at hchars
          cases on <;> simp [Role.signal] at hchars
      | gate m => exact Role.name_injective h
      | output => exact Role.name_injective h
  | output =>
      cases t with
      | switch w => exact absurd h.symm (ne_signal_of_isName (ht w rfl) nofun)
      | constant on => cases on <;> exact absurd h (by decide)
      | gate m => exact Role.name_injective h
      | output => rfl

/-! ## The text -/

/-- The bulb of a built circuit has a label. -/
theorem label_bulb (hbuilt : Circuit.ofExpr e = .ok c) (hx : c.component? outputName = some x) :
    x.label = some "Output" := by
  obtain ⟨⟨root, level, base⟩, hbase, h⟩ := ok_of_bind_ok hbuilt
  obtain ⟨⟨k, d⟩, hconnect, h⟩ := ok_of_bind_ok h
  obtain rfl := Except.ok.inj h
  set bulb := ((Component.sink .bulb ((positionOf base root).shifted columnSpacing 0)).withId
    outputName).withLabel "Output"
  have hwired : base.WellWired :=
    ((run_switches e.variableNames).trans (run_build hbase)).wellWired .empty
  have hformed : bulb.WellFormed := ((Component.wellFormed_sink _ _).withId _).withLabel _
  have hplain : d.plain.component = (base.add bulb).2.plain.component := by
    rw [(hwired.add hformed).plain_wireUp hconnect]
    rfl
  have hgiven : (base.add bulb).1 = outputName := Circuit.add_fst base Role.output.name_ne_empty
  have hfound : (d.component? outputName).map (·.unplugged) =
      some (bulb.withId outputName).unplugged := by
    refine (congrFun hplain outputName).trans ?_
    rw [hwired.component_add, hgiven, if_pos rfl]
  rw [hx] at hfound
  exact congrArg Component.label (Option.some.inj hfound)

section Written

variable (hbuilt : Circuit.ofExpr e = .ok c) (hc : Realizes e root c)
  (hnames : ∀ v ∈ e.variableNames, IsName v)

include hc hnames

/-- The role of a component, with its signal. -/
theorem Realizes.exists_role (hx : c.component? x.id = some x) : ∃ r : Role, x.id = r.name ∧
    r.Fits e.variableNames c.components.size x ∧ signalOf x = r.signal ∧
      ∀ v, r = .switch v → IsName v := by
  obtain ⟨r, hid, hfits⟩ := hc.parts hx
  refine ⟨r, hid, hfits, signalOf_of_fits hfits hid hnames, fun v hr => ?_⟩
  subst hr
  exact hnames v hfits.1

/-- Different components have different signals. -/
theorem Realizes.nodup_claimed : (Netlist.claimed c).Nodup := by
  have hentries : c.components.entries.Nodup := (Circuit.nodup_ids c).of_map
  refine (hentries.filter _).map_on fun x hx y hy hsame => ?_
  have hx := Roster.mem_entries_iff.1 (List.mem_filter.1 hx).1
  have hy := Roster.mem_entries_iff.1 (List.mem_filter.1 hy).1
  obtain ⟨r, hr, -, hsignal, hname⟩ := hc.exists_role hnames hx
  obtain ⟨t, ht, -, hsignal', hname'⟩ := hc.exists_role hnames hy
  obtain rfl := signal_injective hname hname' (hsignal ▸ hsignal' ▸ hsame)
  rw [hr, ← ht] at hx
  exact Option.some.inj (hx.symm.trans hy)

/-- No component takes the signal of the output. -/
theorem Realizes.output_not_mem_claimed : "Output" ∉ Netlist.claimed c := by
  intro hmem
  obtain ⟨x, hx, hsignal⟩ := List.mem_map.1 hmem
  obtain ⟨r, -, -, hrole, hname⟩ :=
    hc.exists_role hnames (Roster.mem_entries_iff.1 (List.mem_filter.1 hx).1)
  rw [hrole] at hsignal
  by_cases hswitch : ∃ v, r = .switch v
  · obtain ⟨v, rfl⟩ := hswitch
    have hcapital : IsName "Output" := hsignal ▸ hname v rfl
    exact absurd hcapital (by decide +kernel)
  · obtain ⟨ch, tail, heq, hlower⟩ := exists_head_signal fun v hr => hswitch ⟨v, hr⟩
    rw [hsignal] at heq
    obtain rfl : 'O' = ch := congrArg (fun l => l.headD 'O') heq
    cases hlower

/-- A component under a name of its own is a switch or a gate. -/
theorem Realizes.named_cases (hx : x ∈ Netlist.named c) :
    (∃ v ∈ e.variableNames, signalOf x = v) ∨ ∃ n, signalOf x = (Role.gate n).name := by
  obtain ⟨r, -, hfits, hsignal, -⟩ := hc.exists_role hnames (Netlist.component?_of_named hx)
  have hcases : (x ∈ c.sources ∧ (Netlist.varies x ∨ x.label.isSome)) ∨ x ∈ c.gates := by
    simp only [Netlist.named, Netlist.written, List.mem_append, List.mem_filter,
      Netlist.isNamedConstant, Bool.and_eq_true] at hx
    tauto
  cases r with
  | switch v => exact .inl ⟨v, hfits.1, hsignal⟩
  | gate n => exact .inr ⟨n, hsignal⟩
  | constant on =>
      obtain ⟨hk, hlabel⟩ := hfits
      rcases hcases with ⟨-, hvaries | hlabelled⟩ | hgate
      · rw [Netlist.varies, hk] at hvaries
        cases on <;> cases hvaries
      · rw [hlabel] at hlabelled
        cases hlabelled
      · obtain ⟨-, g, hkind⟩ := Circuit.mem_gates_iff.1 hgate
        cases hk.symm.trans hkind
  | output =>
      have hk : x.kind = .sink (.ofKind .bulb) := hfits
      rcases hcases with ⟨hsource, -⟩ | hgate
      · obtain ⟨-, s, hkind⟩ := Circuit.mem_sources_iff.1 hsource
        cases hk.symm.trans hkind
      · obtain ⟨-, g, hkind⟩ := Circuit.mem_gates_iff.1 hgate
        cases hk.symm.trans hkind

omit hnames

include hbuilt

/-- The only output is what the root computes. -/
theorem Realizes.allOutputs_eq :
    Netlist.allOutputs c = [("Output", driverSignal c (some root))] := by
  obtain ⟨x, hsinks, hx, hk⟩ := hc.exists_sinks_eq
  have hid : x.id = outputName := Roster.name_of_get? hx
  have harity : x.arity = 1 := by rw [Component.arity, (hc.wired.formed hx).slots, hk]; rfl
  have hplain : signalName "Output" = "Output" := by decide +kernel
  have hname : signalName x.displayName = "Output" := by
    rw [Component.displayName, label_bulb hbuilt hx]
    exact hplain
  rw [Netlist.allOutputs, hsinks, List.flatMap_singleton, Netlist.outputsOf, hid, hc.driven]
  simp only [List.zipIdx_cons, List.zipIdx_nil, List.map_cons, List.map_nil, harity, hname,
    Nat.lt_irrefl, if_false]

include hnames

/-- All names in the text of a built circuit are legible. -/
theorem Realizes.legible : Netlist.Legible c := by
  intro name hname
  rw [Netlist.driven_ofCircuit, hc.allOutputs_eq hbuilt] at hname
  rcases List.mem_append.1 hname with hname | hname
  · obtain ⟨x, hx, rfl⟩ := List.mem_map.1 hname
    rcases hc.named_cases hnames hx with ⟨v, hv, hsignal⟩ | ⟨n, hsignal⟩
    · rw [hsignal]
      intro hmem
      have hall : ∀ v ∈ ["", "gnd", "vdd"], ¬ IsName v := by decide +kernel
      exact hall v hmem (hnames v hv)
    · rw [hsignal]
      intro hmem
      have hchars := toList_name_gate n
      simp only [List.mem_cons, List.not_mem_nil, or_false] at hmem
      rcases hmem with hmem | hmem | hmem <;> rw [hmem] at hchars <;> simp at hchars
  · obtain rfl := List.mem_singleton.1 hname
    show "Output" ∉ _
    decide

/-- The text of a built circuit is written. -/
theorem Realizes.exists_text : ∃ text, c.toNetlist = .ok text := by
  have hclaimed : Netlist.repeated? [] (Netlist.claimed c) = none :=
    Netlist.repeated?_eq_none_iff.2 ⟨hc.nodup_claimed hnames, fun _ _ => List.not_mem_nil⟩
  have houtputs : Netlist.repeated? (Netlist.claimed c)
      ((Netlist.allOutputs c).map (·.1)) = none := by
    rw [hc.allOutputs_eq hbuilt]
    refine Netlist.repeated?_eq_none_iff.2 ⟨List.nodup_singleton _, fun name hname => ?_⟩
    obtain rfl := List.mem_singleton.1 hname
    exact hc.output_not_mem_claimed hnames
  unfold Circuit.toNetlist Netlist.write
  simp only [hclaimed, houtputs]
  exact ⟨_, rfl⟩

end Written

/-! ## What the signals mean -/

section Meaning

variable {value : String → Bool} (hbuilt : Circuit.ofExpr e = .ok c) (hc : Realizes e root c)
  (hnames : ∀ v ∈ e.variableNames, IsName v) (hn : (ofCircuit c).driven.Nodup)

theorem driverSignal_of_component? (hx : c.component? id = some x) :
    driverSignal c (some id) = signalOf x := by
  rw [driverSignal, Option.bind_some, hx]
  rfl

/-- The inputs are the variables. -/
theorem Realizes.mem_inputs_iff (hc : Realizes e root c)
    (hnames : ∀ v ∈ e.variableNames, IsName v) :
    v ∈ (ofCircuit c).inputs ↔ v ∈ e.variableNames := by
  constructor
  · intro hv
    obtain ⟨x, hx, rfl⟩ := List.mem_map.1 hv
    obtain ⟨hsource, hvaries⟩ := List.mem_filter.1 hx
    obtain ⟨hfound, s, hk⟩ := Circuit.mem_sources_iff.1 hsource
    obtain ⟨r, -, hfits, hsignal, -⟩ := hc.exists_role hnames hfound
    cases r with
    | switch v => exact hsignal ▸ hfits.1
    | constant on =>
        rw [Netlist.varies, hfits.1] at hvaries
        cases on <;> cases hvaries
    | gate n =>
        obtain ⟨-, g, hgate⟩ := hfits
        cases hk.symm.trans hgate
    | output =>
        have hbulb : x.kind = .sink (.ofKind .bulb) := hfits
        cases hk.symm.trans hbulb
  · intro hv
    obtain ⟨x, hx⟩ := hc.switches hv
    have hid : x.id = inputName v := Roster.name_of_get? hx
    have hfits := hc.fits (r := .switch v) hx
    have hsignal : signalOf x = v := signalOf_of_fits hfits hid hnames
    obtain ⟨-, ⟨level, hk⟩, -⟩ := hfits
    refine List.mem_map.2 ⟨x, List.mem_filter.2
      ⟨Circuit.mem_sources_iff.2 ⟨hid ▸ hx, _, hk⟩, ?_⟩, hsignal⟩
    rw [Netlist.varies, hk]
    rfl

include hbuilt hc hnames hn

/-- The signal of a component means the value of what is read off it. -/
theorem Realizes.means_of_readsAs (h : c.ReadsAs id f) :
    (ofCircuit c).Means value (driverSignal c (some id)) (f.eval value) := by
  have hlegible := hc.legible hbuilt hnames
  have hsignals : ∀ {id x g bits}, c.component? id = some x → x.kind = .gate g →
      List.Forall₂ ((ofCircuit c).Means value) ((c.driversOf id).map (driverSignal c)) bits →
      (ofCircuit c).Means value (driverSignal c (some id)) (g.eval bits) := by
    intro id x g bits hx hk hbits
    obtain rfl : x.id = id := Roster.name_of_get? hx
    have hgate : x ∈ c.gates := Circuit.mem_gates_iff.2 ⟨hx, g, hk⟩
    have hsignal : Netlist.componentSignal c x ∈ (ofCircuit c).signals :=
      Netlist.mem_signals_iff.2 (.inl ⟨x, List.mem_append_right _ hgate, rfl⟩)
    have hop : (Netlist.componentSignal c x).operation = .gate g := by
      show x.kind.operation = _
      rw [hk]
      rfl
    have hmeans := Netlist.Means.of_args hn hsignal hbits
    rw [hop] at hmeans
    rw [driverSignal_of_component? hx]
    exact hmeans
  induction h with
  | @source id x s hx hk =>
      rw [driverSignal_of_component? hx]
      obtain ⟨r, rfl, hfits⟩ := hc.parts hx
      have hsignal := signalOf_of_fits hfits (Roster.name_of_get? hx) hnames
      rw [hsignal]
      cases r with
      | switch v =>
          obtain ⟨hv, ⟨level, hswitch⟩, hlabel⟩ := hfits
          obtain rfl := Kind.source.inj (hk.symm.trans hswitch)
          rw [hlabel]
          exact .input ((hc.mem_inputs_iff hnames).2 hv)
      | constant on =>
          obtain ⟨hconstant, hlabel⟩ := hfits
          obtain rfl := Kind.source.inj (hk.symm.trans hconstant)
          rw [hlabel]
          cases on
          case true => exact .power fun hmem => hlegible _ hmem (by simp)
          case false => exact .ground fun hmem => hlegible _ hmem (by simp)
      | gate n =>
          obtain ⟨-, g, hgate⟩ := hfits
          cases hk.symm.trans hgate
      | output =>
          have hbulb : x.kind = .sink (.ofKind .bulb) := hfits
          cases hk.symm.trans hbulb
  | @inverter id x a e' hx hk hdrivers _ ih =>
      have hbits := List.Forall₂.cons ih .nil
      exact hsignals hx hk (by rw [hdrivers]; exact hbits)
  | @operator id x a b e' f' op hx hk hdrivers _ _ iha ihb =>
      have hbits := List.Forall₂.cons iha (.cons ihb .nil)
      have hmeans := hsignals hx hk (by rw [hdrivers]; exact hbits)
      rw [op.eval_spell]
      cases op <;> exact hmeans

/-- The output means the value of the expression. -/
theorem Realizes.means_output : (ofCircuit c).Means value "Output" (e.eval value) := by
  have hroot : (ofCircuit c).Means value (driverSignal c (some root)) (e.spelled.eval value) :=
    hc.means_of_readsAs hbuilt hnames hn hc.reads
  rw [e.eval_spelled] at hroot
  have hbuffer : Netlist.bufferSignal ("Output", driverSignal c (some root)) ∈
      (ofCircuit c).signals :=
    Netlist.mem_signals_iff.2 (.inr ⟨_, by rw [hc.allOutputs_eq hbuilt]; simp, rfl⟩)
  exact Netlist.Means.of_args hn hbuffer (.cons hroot .nil)

end Meaning

end Synthesis

/-- Through a netlist and back. The circuit for the expression of a text can be written as a
netlist, and what is read from this netlist has one switch for each variable of the expression and
one bulb. Whatever the switches are set to, in whatever order, one pass of a new simulator gives
the bulb the value of the expression. -/
theorem netlist_of_expression {s : String} {e : Expr} (h : Expr.parse s = .ok e) :
    ∃ c text d, Circuit.ofExpr e = .ok c ∧ c.toNetlist = .ok text ∧
      Circuit.ofNetlist text.toUTF8.toList = .ok d ∧
      (∀ id, (∃ x level, d.component? id = some x ∧ x.kind = .source ⟨.switch, level⟩) ↔
        ∃ v ∈ e.variableNames, id = Netlist.inputId v) ∧
      (∀ id, (∃ x s, d.component? id = some x ∧ x.kind = .sink s) ↔
        id = Netlist.outputId "Output") ∧
      ∀ (value : String → Bool) (order : List String),
        (∀ v, v ∈ order ↔ v ∈ e.variableNames) → ∃ f,
          order.foldlM (fun c v => c.setSwitch? (Netlist.inputId v) (value v)) d = some f ∧
          ((Simulator.new.evaluate f).2.2.component? (Netlist.outputId "Output")).map (·.value) =
            some (.bit (e.eval value)) := by
  have hnames : ∀ v ∈ e.variableNames, IsName v := fun v hv =>
    Expr.wellNamed_of_parse h v (Expr.mem_variableNames_iff.1 hv)
  obtain ⟨c, root, hbuilt, hc⟩ := Synthesis.exists_ofExpr e
  obtain ⟨text, htext⟩ := hc.exists_text hbuilt hnames
  have hlegible := hc.legible hbuilt hnames
  have hn := Netlist.nodup_driven hlegible htext
  have hacyclic := (Loaded.run (.expr hbuilt)).acyclic
  have hbuildable := Netlist.buildable_ofCircuit hc.wired hacyclic hn hlegible
  obtain ⟨d, hd, hrealizes⟩ := Netlist.exists_realizes hbuildable
  obtain ⟨t, ht, hread⟩ := ok_of_bind_ok (Netlist.read_toNetlist hc.wired hlegible htext)
  have hinputs : ∀ v, v ∈ (Netlist.ofCircuit c).inputs ↔ v ∈ e.variableNames :=
    fun v => hc.mem_inputs_iff hnames
  have houtputs : (Netlist.ofCircuit c).outputs = ["Output"] := by
    show (Netlist.allOutputs c).map (·.1) = _
    rw [hc.allOutputs_eq hbuilt]
    rfl
  refine ⟨c, text, d, hbuilt, htext, (Netlist.ofNetlist_eq ht hread).trans hd, fun id => ?_,
    fun id => ?_, fun value order horder => ?_⟩
  · rw [hrealizes.exists_switch_iff]
    simp only [hinputs]
  · rw [hrealizes.exists_sink_iff, houtputs]
    simp
  · obtain ⟨f, hset, hlit⟩ := hrealizes.exists_lit hn hbuildable.arity
      (hrealizes.acyclic hbuildable) (fun v => (horder v).trans (hinputs v).symm) value
    obtain ⟨on, hon, hshown⟩ := hlit.value_output (houtputs ▸ List.mem_singleton_self _)
      (Simulator.belongsTo_new f)
    obtain rfl := (hc.means_output hbuilt hnames hn).unique hn hon
    exact ⟨f, hset, hshown⟩

/-- An exclusive or with a variable on both sides and both constants, and only that variable on.
-/
theorem netlist_of_expression_shared :
    let e : Expr := .binary .xor (.binary .nand (.var "A") (.var "B"))
      (.not (.binary .or (.binary .and (.var "A") (.const true)) (.const false)))
    Expr.parse "(a nand b) xor not (a and 1 or 0)" = .ok e ∧
    ∃ c text d f, Circuit.ofExpr e = .ok c ∧ c.toNetlist = .ok text ∧
      Circuit.ofNetlist text.toUTF8.toList = .ok d ∧
      ["B", "A"].foldlM (fun c v => c.setSwitch? (Netlist.inputId v) (v == "A")) d = some f ∧
      ((Simulator.new.evaluate f).2.2.component? "output-Output").map (·.value) =
        some (.bit true) := by
  intro e
  have hparse : Expr.parse "(a nand b) xor not (a and 1 or 0)" = .ok e := by decide +kernel
  have hnames : e.variableNames = ["A", "B"] := by decide +kernel
  obtain ⟨c, text, d, hbuilt, htext, hread, -, -, hvalues⟩ := netlist_of_expression hparse
  obtain ⟨f, hset, hvalue⟩ := hvalues (· == "A") ["B", "A"] fun v => by
    simp [hnames, or_comm]
  exact ⟨hparse, c, text, d, f, hbuilt, htext, hread, hset, hvalue⟩

end LogicCircuit
