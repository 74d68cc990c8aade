import LogicCircuit.Proofs.Extraction.Meaning
import LogicCircuit.Proofs.Synthesis.Building

/-!
# Evaluating a built circuit

Setting the switches of a built circuit, in any order, gives each of them the value of its
variable and leaves everything else as it was (`exists_setSwitches`). So every source has the
level that it is read as, and one pass brings the value of the expression to the bulb:
`synthesis_correct`.
-/

namespace LogicCircuit

/-- Spelling out NAND and NOR keeps the value. -/
@[simp] theorem Expr.eval_spelled (e : Expr) (value : String → Bool) :
    e.spelled.eval value = e.eval value := by
  induction e with
  | var name => rfl
  | const on => rfl
  | not e ih => rw [spelled, eval, ih, eval]
  | binary op a b iha ihb => rw [spelled, op.eval_spell, iha, ihb, eval]

namespace Synthesis

variable {e : Expr} {root id : ComponentId} {c d : Circuit} {x : Component} {v : String}
  {value : String → Bool} {order : List String}

/-! ## Setting switches -/

/-- A component as a switch at some level. -/
def switchAt (x : Component) (on : Bool) : Component := { x with kind := .source ⟨.switch, on⟩ }

/-- A variable has a switch. -/
def HasSwitch (c : Circuit) (v : String) : Prop :=
  ∃ x level, c.component? (inputName v) = some x ∧ x.kind = .source ⟨.switch, level⟩

/-- The second circuit is the first with the switches of some variables at the values of the
variables. -/
structure Assigned (value : String → Bool) (names : List String) (c d : Circuit) : Prop where
  /-- The frame is the same. -/
  frame : d.frame = c.frame
  /-- Each of the switches has the value of its variable. -/
  switches : ∀ {v}, v ∈ names → ∃ x, c.component? (inputName v) = some x ∧
    d.component? (inputName v) = some (switchAt x (value v))
  /-- All other components are the same. -/
  others : ∀ {a}, (∀ v ∈ names, a ≠ inputName v) → d.component? a = c.component? a

/-- Setting the switch of a variable changes its level and nothing else. -/
theorem HasSwitch.exists_set (h : HasSwitch c v) (on : Bool) :
    ∃ x d, c.component? (inputName v) = some x ∧ c.setSwitch? (inputName v) on = some d ∧
      d.frame = c.frame ∧ d.component? (inputName v) = some (switchAt x on) ∧
      ∀ a, a ≠ inputName v → d.component? a = c.component? a := by
  obtain ⟨x, level, hx, hk⟩ := h
  have hset : c.setSwitch? (inputName v) on = some (c.modify (inputName v)
      (fun x => { x with kind := x.kind.mapSource (·.setLevel on) }) fun _ => rfl) := by
    simp [Circuit.setSwitch?, Circuit.modifySource?, hx, hk, Kind.source?]
  refine ⟨x, _, hx, hset, Circuit.frame_modifySource (by simp) hset, ?_, fun a ha => ?_⟩
  · rw [Circuit.component?_modify, if_pos rfl, hx]
    simp [hk, Kind.mapSource, Source.setLevel, switchAt]
  · rw [Circuit.component?_modify, if_neg ha]

/-- The switches of variables can be set one by one. A later setting of the same switch finds the
value there already. -/
theorem exists_setSwitches (value : String → Bool) (hswitches : ∀ v ∈ order, HasSwitch c v) :
    ∃ d, order.foldlM (fun c v => c.setSwitch? (inputName v) (value v)) c = some d ∧
      Assigned value order c d := by
  induction order generalizing c with
  | nil => exact ⟨c, rfl, rfl, (nomatch ·), fun _ => rfl⟩
  | cons w order ih =>
      obtain ⟨y, c', hy, hset, hframe, hself, hother⟩ :=
        (hswitches w List.mem_cons_self).exists_set (value w)
      have hother' : ∀ v, v ≠ w → c'.component? (inputName v) = c.component? (inputName v) :=
        fun v hv => hother _ fun h => hv (inputName_injective h)
      have hswitches' : ∀ v ∈ order, HasSwitch c' v := by
        intro v hv
        by_cases hvw : v = w
        · subst hvw
          exact ⟨_, value v, hself, rfl⟩
        · obtain ⟨x, level, hx, hk⟩ := hswitches v (List.mem_cons_of_mem _ hv)
          exact ⟨x, level, (hother' v hvw).trans hx, hk⟩
      obtain ⟨d, hd, hassigned⟩ := ih hswitches'
      refine ⟨d, ?_, hassigned.frame.trans hframe, fun {v} hv => ?_, fun {a} ha => ?_⟩
      · rw [List.foldlM_cons, hset]
        exact hd
      · by_cases hmem : v ∈ order
        · obtain ⟨x, hx, hdx⟩ := hassigned.switches hmem
          by_cases hvw : v = w
          · subst hvw
            obtain rfl := Option.some.inj (hself.symm.trans hx)
            exact ⟨y, hy, hdx⟩
          · exact ⟨x, (hother' v hvw).symm.trans hx, hdx⟩
        · obtain rfl := (List.mem_cons.1 hv).resolve_right hmem
          have hnone : ∀ w ∈ order, inputName v ≠ inputName w := fun w hw h =>
            hmem (inputName_injective h ▸ hw)
          exact ⟨y, hy, (hassigned.others hnone).trans hself⟩
      · have hrest := hassigned.others fun v hv => ha v (List.mem_cons_of_mem _ hv)
        rw [hrest, hother a (ha w List.mem_cons_self)]

/-! ## Built circuits with their switches set -/

/-- Each variable of a built circuit has a switch. -/
theorem Realizes.hasSwitch (h : Realizes e root c) (hv : v ∈ e.variableNames) :
    HasSwitch c v := by
  obtain ⟨x, hx⟩ := h.switches hv
  obtain ⟨_, ⟨level, hk⟩, _⟩ := h.fits (r := .switch v) hx
  exact ⟨x, level, hx, hk⟩

namespace Assigned

variable (h : Assigned value order c d) (hc : Realizes e root c)
  (horder : ∀ v, v ∈ order ↔ v ∈ e.variableNames)

include h hc horder

/-- A component of a built circuit is a switch at the value of its variable, or the same as
before; of the sources these are the constants. -/
theorem component?_cases (hx : c.component? id = some x) :
    (∃ v level, d.component? id = some (switchAt x (value v)) ∧
      x.kind = .source ⟨.switch, level⟩ ∧ x.label = some v) ∨
    d.component? id = some x ∧ ∀ s, x.kind = .source s →
      ∃ on, s = .ofKind (constantKind on) ∧ x.label = none := by
  obtain ⟨r, rfl, hfits⟩ := hc.parts hx
  have hsame : (∀ v, r ≠ .switch v) → d.component? r.name = some x := fun hne =>
    (h.others fun v _ => Role.name_injective.ne (hne v)).trans hx
  cases r with
  | switch v =>
      obtain ⟨hv, ⟨level, hk⟩, hlabel⟩ := hfits
      obtain ⟨y, hy, hdy⟩ := h.switches ((horder v).2 hv)
      obtain rfl := Option.some.inj (hx.symm.trans hy)
      exact .inl ⟨v, level, hdy, hk, hlabel⟩
  | constant on =>
      obtain ⟨hk, hlabel⟩ := hfits
      exact .inr ⟨hsame nofun, fun s hs => ⟨on, Kind.source.inj (hs.symm.trans hk), hlabel⟩⟩
  | gate n =>
      obtain ⟨_, g, hk⟩ := hfits
      exact .inr ⟨hsame nofun, fun s hs => nomatch hs.symm.trans hk⟩
  | output => exact .inr ⟨hsame nofun, fun s hs => nomatch hs.symm.trans hfits⟩

/-- The expression is still read off the root. -/
theorem readsAs : d.ReadsAs root e.spelled := by
  refine hc.reads.transfer (fun {a x s} hx hk => ?_) fun {a x g} hx hk => ?_
  · rcases h.component?_cases hc horder hx with ⟨v, level, hdx, hswitch, hlabel⟩ | ⟨hdx, -⟩
    · obtain rfl := Kind.source.inj (hk.symm.trans hswitch)
      exact ⟨_, _, hdx, rfl, rfl⟩
    · exact ⟨x, s, hdx, hk, rfl⟩
  · rcases h.component?_cases hc horder hx with ⟨v, level, _, hswitch, _⟩ | ⟨hdx, -⟩
    · exact nomatch hk.symm.trans hswitch
    · exact ⟨⟨x, hdx, hk⟩, by rw [Circuit.driversOf_of_frame h.frame]⟩

/-- Every source has the level that it is read as. -/
theorem levels : d.Levels value := by
  intro id y s hy hk
  obtain ⟨x, hx, _⟩ := Circuit.component?_of_frame h.frame hy
  rcases h.component?_cases hc horder hx with ⟨v, level, hdx, _, hlabel⟩ | ⟨hdx, hconstant⟩
  · obtain rfl := Option.some.inj (hy.symm.trans hdx)
    obtain rfl := Kind.source.inj hk
    rw [switchAt, hlabel]
    rfl
  · obtain rfl := Option.some.inj (hy.symm.trans hdx)
    obtain ⟨on, rfl, hlabel⟩ := hconstant s hk
    rw [hlabel]
    cases on <;> rfl

/-- The bulb shows the value of the expression after a pass. -/
theorem exists_bulb {s : Simulator} (hs : s.BelongsTo c) : ∃ bulb,
    (s.evaluate d).2.2.component? outputName = some bulb ∧ bulb.value = .bit (e.eval value) ∧
      bulb.output = e.eval value := by
  have hd : d.WellWired := hc.wired.of_frame h.frame
  have hreads := h.readsAs hc horder
  have hvalue : d.denote root = e.eval value := by
    rw [hreads.denote_eq hd (h.levels hc horder), e.eval_spelled]
  obtain ⟨x, hx⟩ := hc.bulb
  have hk : x.kind = .sink (.ofKind .bulb) := hc.fits (r := .output) hx
  have hlook : d.component? outputName = some x := by
    rcases h.component?_cases hc horder hx with ⟨_, _, _, hswitch, _⟩ | ⟨hdx, -⟩
    · exact nomatch hk.symm.trans hswitch
    · exact hdx
  have hfirst : (d.driversOf outputName).head? = some (some root) := by
    rw [Circuit.driversOf_of_frame h.frame, hc.driven]
    rfl
  obtain ⟨bits, hlength, hbit, hpass⟩ :=
    hd.exists_received (hs.of_frame h.frame) hlook hfirst (hreads.acyclicCone hd)
  obtain ⟨b, rfl⟩ := List.length_eq_one_iff.1 (hlength.trans (by rw [hk]; rfl))
  obtain rfl : b = e.eval value := (Option.some.inj hbit).trans hvalue
  refine ⟨_, hpass, ?_, ?_⟩
  · simp only [Component.evaluate, hk, Component.value]
    rfl
  · simp only [Component.evaluate, hk]
    rfl

end Assigned

end Synthesis

/-- Synthesis is correct. Every expression has a circuit, and after the switches of its variables
are set to their values, in any order, one pass of a simulator that belongs to the circuit gives
the bulb the value of the expression. -/
theorem synthesis_correct (e : Expr) : ∃ c, Circuit.ofExpr e = .ok c ∧
    ∀ (value : String → Bool) (order : List String) (s : Simulator),
      (∀ v, v ∈ order ↔ v ∈ e.variableNames) → s.BelongsTo c →
      ∃ d bulb,
        order.foldlM (fun c v => c.setSwitch? (Synthesis.inputName v) (value v)) c = some d ∧
        (s.evaluate d).2.2.component? Synthesis.outputName = some bulb ∧
        bulb.value = .bit (e.eval value) ∧ bulb.output = e.eval value := by
  obtain ⟨c, root, hbuilt, hc⟩ := Synthesis.exists_ofExpr e
  refine ⟨c, hbuilt, fun value order s horder hs => ?_⟩
  obtain ⟨d, hset, hassigned⟩ :=
    Synthesis.exists_setSwitches value fun v hv => hc.hasSwitch ((horder v).1 hv)
  obtain ⟨bulb, hbulb, hvalue, hout⟩ := hassigned.exists_bulb hc horder hs
  exact ⟨d, bulb, hset, hbulb, hvalue, hout⟩

/-- The circuit for an exclusive or that shares a variable and has a constant, both switches on.
-/
theorem synthesis_correct_shared :
    let e : Expr := .binary .xor (.binary .nand (.var "A") (.var "B"))
      (.binary .and (.var "A") (.const true))
    ∃ c, Circuit.ofExpr e = .ok c ∧ ∃ d bulb,
      ["B", "A"].foldlM (fun c v => c.setSwitch? (Synthesis.inputName v) true) c = some d ∧
      (Simulator.new.evaluate d).2.2.component? "output-main" = some bulb ∧
      bulb.value = .bit true ∧ bulb.output = true := by
  intro e
  obtain ⟨c, hbuilt, hc⟩ := synthesis_correct e
  have hnames : e.variableNames = ["A", "B"] := by decide +kernel
  have horder : ∀ v, v ∈ ["B", "A"] ↔ v ∈ e.variableNames := by
    intro v
    simp [hnames, or_comm]
  exact ⟨c, hbuilt, hc (fun _ => true) ["B", "A"] .new horder (Simulator.belongsTo_new c)⟩

end LogicCircuit
