import LogicCircuit.Proofs.Samples.Building
import Mathlib.Data.Set.List
import Mathlib.Algebra.BigOperators.Fin
import Mathlib.Tactic.Ring

/-!
# The ripple-carry adder adds

The adder is built stage by stage. A stage puts its two switches and its bulb there and hands its
carry on, and `exists_stages` says, by induction on the stages, which expressions the bulbs show
and the last carry has. What these expressions are worth is the arithmetic of the full adder
(`sum_add_carry`), added up over the stages. `ripple_carry_adds` puts both together.
-/

namespace LogicCircuit

namespace Samples

open Circuit (ReadsAs)
open Synthesis (HasSwitch inputName)

/-! ## Names -/

/-- A part of the adder that the sample names. -/
inductive Part where
  /-- The switch of a bit of the first number. -/
  | first (i : Nat)
  /-- The switch of a bit of the second number. -/
  | second (i : Nat)
  /-- The bulb of a bit of the sum. -/
  | sum (i : Nat)
  /-- The bulb of the last carry. -/
  | carry

namespace Part

/-- The name of a part. -/
def name : Part → ComponentId
  | first i => inputName s!"A{i}"
  | second i => inputName s!"B{i}"
  | sum i => "output-" ++ s!"S{i}"
  | carry => "output-" ++ "Cout"

/-- The name tells the part. -/
theorem name_injective : Function.Injective name := by
  intro p q h
  cases p <;> cases q
  case first.first => exact congrArg first (append_repr_injective "input-A" h)
  case second.second => exact congrArg second (append_repr_injective "input-B" h)
  case sum.sum => exact congrArg sum (append_repr_injective "output-S" h)
  case carry.carry => rfl
  all_goals
    have hchars := congrArg String.toList h
    simp [name, inputName, toString] at hchars

/-- The part belongs to a stage before some stage. -/
def Before (i : Nat) : Part → Prop
  | first j | second j | sum j => j < i
  | carry => False

/-- The names of the parts of all stages before some stage. -/
def namesBefore (i : Nat) : Set ComponentId := name '' {p | p.Before i}

theorem name_mem_namesBefore {p : Part} {i : Nat} : p.name ∈ namesBefore i ↔ p.Before i :=
  name_injective.mem_set_image

theorem namesBefore_mono {i j : Nat} (h : i ≤ j) : namesBefore i ⊆ namesBefore j := by
  refine Set.image_mono fun p hp => ?_
  cases p with
  | first k => exact Nat.lt_of_lt_of_le hp h
  | second k => exact Nat.lt_of_lt_of_le hp h
  | sum k => exact Nat.lt_of_lt_of_le hp h
  | carry => exact hp

end Part

/-! ## Expressions -/

/-- The sum of two bits and a carry, if there is one. -/
def sumExpr (a b : Expr) : Option Expr → Expr
  | none => .binary .xor a b
  | some k => .binary .xor (.binary .xor a b) k

/-- The carry of two bits and a carry, if there is one. -/
def carryExpr (a b : Expr) : Option Expr → Expr
  | none => .binary .and a b
  | some k => .binary .or (.binary .and a b) (.binary .and (.binary .xor a b) k)

/-- The carry into a stage. -/
def carryInto : Nat → Option Expr
  | 0 => none
  | i + 1 => some (carryExpr (.var s!"A{i}") (.var s!"B{i}") (carryInto i))

/-- The sum bit of a stage. -/
def sumAt (i : Nat) : Expr := sumExpr (.var s!"A{i}") (.var s!"B{i}") (carryInto i)

/-- The value of a carry; without one it is false. -/
def carryValue (value : String → Bool) (k : Option Expr) : Bool := k.elim false (·.eval value)

section Arithmetic

variable (value : String → Bool)

theorem eval_sumExpr (a b : Expr) (k : Option Expr) : (sumExpr a b k).eval value =
    ((a.eval value ^^ b.eval value) ^^ carryValue value k) := by
  cases k with
  | none => exact (Bool.xor_false _).symm
  | some k => rfl

theorem eval_carryExpr (a b : Expr) (k : Option Expr) : (carryExpr a b k).eval value =
    (a.eval value && b.eval value || (a.eval value ^^ b.eval value) && carryValue value k) := by
  cases k with
  | none => simp [carryExpr, carryValue, Expr.eval, BinaryOp.apply, BinaryOp.gate, Gate.apply]
  | some k => rfl

/-- A full adder adds three bits. -/
theorem eval_sumExpr_add (a b : Expr) (k : Option Expr) :
    ((sumExpr a b k).eval value).toNat + 2 * ((carryExpr a b k).eval value).toNat =
      (a.eval value).toNat + (b.eval value).toNat + (carryValue value k).toNat := by
  rw [eval_sumExpr, eval_carryExpr]
  cases a.eval value <;> cases b.eval value <;> cases carryValue value k <;> rfl

open Finset in
/-- The sum bits of some stages and the carry out of them add up to the two numbers. -/
theorem sum_add_carry (n : Nat) :
    ∑ i ∈ range n, ((sumAt i).eval value).toNat * 2 ^ i +
        (carryValue value (carryInto n)).toNat * 2 ^ n =
      ∑ i ∈ range n, (value s!"A{i}").toNat * 2 ^ i +
        ∑ i ∈ range n, (value s!"B{i}").toNat * 2 ^ i := by
  induction n with
  | zero => rfl
  | succ n ih =>
      have hstage : ((sumAt n).eval value).toNat +
          2 * (carryValue value (carryInto (n + 1))).toNat =
          (value s!"A{n}").toNat + (value s!"B{n}").toNat +
            (carryValue value (carryInto n)).toNat :=
        eval_sumExpr_add value (.var s!"A{n}") (.var s!"B{n}") (carryInto n)
      rw [sum_range_succ, sum_range_succ, sum_range_succ]
      calc ∑ i ∈ range n, ((sumAt i).eval value).toNat * 2 ^ i +
            ((sumAt n).eval value).toNat * 2 ^ n +
            (carryValue value (carryInto (n + 1))).toNat * 2 ^ (n + 1)
          = ∑ i ∈ range n, ((sumAt i).eval value).toNat * 2 ^ i +
              (((sumAt n).eval value).toNat +
                2 * (carryValue value (carryInto (n + 1))).toNat) * 2 ^ n := by ring
        _ = (∑ i ∈ range n, ((sumAt i).eval value).toNat * 2 ^ i +
              (carryValue value (carryInto n)).toNat * 2 ^ n) +
              ((value s!"A{n}").toNat + (value s!"B{n}").toNat) * 2 ^ n := by rw [hstage]; ring
        _ = _ := by rw [ih]; ring

end Arithmetic

/-! ## Stages -/

variable {given : Set ComponentId} {c d : Circuit} {a b : ComponentId} {e f : Expr}

/-- A gate on two components that are read computes its operator of what they are read as. -/
theorem Laid.exists_operator (h : Laid given c) {g : Gate} (op : BinaryOp) (hg : g = op.gate)
    (ha : c.ReadsAs a e) (hb : c.ReadsAs b f) (column row : Nat) :
    ∃ id d, gate g [a, b] column row c = .ok (id, d) ∧ Laid given d ∧ c.Extends d ∧
      d.ReadsAs id (op.spell e f) := by
  have hinputs : ∀ k ∈ [a, b], ∃ y, c.component? k = some y ∧ ¬ y.kind.isSink := by
    intro k hk
    rcases List.mem_pair.1 hk with rfl | rfl
    · exact ha.exists_component
    · exact hb.exists_component
  have harity : [a, b].length = g.arity := hg ▸ op.arity_gate.symm
  obtain ⟨id, x, d, hgate, hd, hsame, hnew, hx, hk, -, hdrivers⟩ :=
    h.exists_gate g harity hinputs column row
  have hcd : c.Extends d := hsame.extends hnew
  exact ⟨id, d, hgate, hd, hcd,
    .operator hx (hg ▸ hk) hdrivers (ha.extends hcd) (hb.extends hcd)⟩

/-- The gates of a stage put out its sum and its carry. -/
theorem Laid.exists_addBits (h : Laid given c) (i : Nat) {carry : Option ComponentId}
    {k : Option Expr} (ha : c.ReadsAs a e) (hb : c.ReadsAs b f)
    (hcarry : Option.Rel c.ReadsAs carry k) :
    ∃ s out d, addBits i a b carry c = .ok ((s, out), d) ∧ Laid given d ∧ c.Extends d ∧
      d.ReadsAs s (sumExpr e f k) ∧ d.ReadsAs out (carryExpr e f k) := by
  have hxor : Gate.xor = BinaryOp.xor.gate := rfl
  have hand : Gate.and = BinaryOp.and.gate := rfl
  have hor : Gate.or = BinaryOp.or.gate := rfl
  obtain ⟨p, c₁, hp, h₁, hc₁, hreadP⟩ := h.exists_operator .xor hxor ha hb (3 * i) (2 * i)
  obtain ⟨g, c₂, hg, h₂, hc₂, hreadG⟩ :=
    h₁.exists_operator .and hand (ha.extends hc₁) (hb.extends hc₁) (3 * i) (2 * i + 1)
  rw [addBits, bind_eq_of_ok hp, bind_eq_of_ok hg]
  cases hcarry with
  | none => exact ⟨p, g, c₂, rfl, h₂, hc₁.trans hc₂, hreadP.extends hc₂, hreadG⟩
  | some hread =>
      have hreadP' := hreadP.extends hc₂
      obtain ⟨s, c₃, hs, h₃, hc₃, hreadS⟩ := h₂.exists_operator .xor hxor hreadP'
        (hread.extends (hc₁.trans hc₂)) (3 * i + 1) (2 * i)
      obtain ⟨t, c₄, ht, h₄, hc₄, hreadT⟩ := h₃.exists_operator .and hand (hreadP'.extends hc₃)
        (hread.extends ((hc₁.trans hc₂).trans hc₃)) (3 * i + 1) (2 * i + 1)
      obtain ⟨out, d, hout, hd, hc₄d, hreadOut⟩ := h₄.exists_operator .or hor
        (hreadG.extends (hc₃.trans hc₄)) hreadT (3 * i + 2) (2 * i + 1)
      refine ⟨s, out, d, ?_, hd, (((hc₁.trans hc₂).trans hc₃).trans hc₄).trans hc₄d,
        hreadS.extends (hc₄.trans hc₄d), hreadOut⟩
      dsimp only
      rw [bind_eq_of_ok hs, bind_eq_of_ok ht, bind_eq_of_ok hout]
      rfl

/-- The switches of a stage are there, and its bulb shows its sum bit. -/
structure Staged (c : Circuit) (i : Nat) : Prop where
  first : HasSwitch c s!"A{i}"
  second : HasSwitch c s!"B{i}"
  bulb : HasBulb c s!"S{i}" (sumAt i)

theorem Staged.extends {i : Nat} (h : Staged c i) (hcd : c.Extends d) : Staged d i :=
  ⟨hasSwitch_of_extends h.first hcd, hasSwitch_of_extends h.second hcd, h.bulb.extends hcd⟩

/-- A carry is read off every extension. -/
theorem rel_readsAs_extends {carry : Option ComponentId} {k : Option Expr}
    (h : Option.Rel c.ReadsAs carry k) (hcd : c.Extends d) : Option.Rel d.ReadsAs carry k := by
  cases h with
  | none => exact .none
  | some hread => exact .some (hread.extends hcd)

/-- A stage is put there and hands its carry on. -/
theorem exists_stage (len i : Nat) {carry : Option ComponentId} (h : Laid (Part.namesBefore i) c)
    (hcarry : Option.Rel c.ReadsAs carry (carryInto i)) :
    ∃ out d, (∀ todo, stages len (todo + 1) i carry c = stages len todo (i + 1) (some out) d) ∧
      Laid (Part.namesBefore (i + 1)) d ∧ c.Extends d ∧
      Option.Rel d.ReadsAs (some out) (carryInto (i + 1)) ∧ Staged d i := by
  have hnew : ∀ p : Part, ¬ p.Before i → p.name ∉ Part.namesBefore i := fun p hp hmem =>
    hp (Part.name_mem_namesBefore.1 hmem)
  have hne : ∀ {p q : Part}, p ≠ q → p.name ≠ q.name := fun hpq => Part.name_injective.ne hpq
  obtain ⟨c₁, hfirst, h₁, hc₁, hswitch₁, hread₁⟩ :=
    h.exists_switch (hnew (.first i) (Nat.lt_irrefl i)) (2 * i)
  have hnew₁ : (Part.second i).name ∉ insert (Part.first i).name (Part.namesBefore i) := by
    rw [Set.mem_insert_iff, not_or]
    exact ⟨hne nofun, hnew (.second i) (Nat.lt_irrefl i)⟩
  obtain ⟨c₂, hsecond, h₂, hc₂, hswitch₂, hread₂⟩ := h₁.exists_switch hnew₁ (2 * i + 1)
  obtain ⟨s, out, c₃, hadd, h₃, hc₃, hreadS, hreadOut⟩ := h₂.exists_addBits i
    (hread₁.extends hc₂) hread₂ (rel_readsAs_extends hcarry (hc₁.trans hc₂))
  have hnew₃ : (Part.sum i).name ∉
      insert (Part.second i).name (insert (Part.first i).name (Part.namesBefore i)) := by
    rw [Set.mem_insert_iff, Set.mem_insert_iff, not_or, not_or]
    exact ⟨hne nofun, hne nofun, hnew (.sum i) (Nat.lt_irrefl i)⟩
  obtain ⟨d, hbulb, hd, hc₃d, hshown⟩ :=
    h₃.exists_bulb hnew₃ (3 * len) (2 * i) hreadS
  have hall : insert (Part.sum i).name
      (insert (Part.second i).name (insert (Part.first i).name (Part.namesBefore i))) ⊆
      Part.namesBefore (i + 1) := by
    have hmem : ∀ {p : Part}, p.Before (i + 1) → p.name ∈ Part.namesBefore (i + 1) :=
      Part.name_mem_namesBefore.2
    refine Set.insert_subset (hmem (Nat.lt_succ_self i)) (Set.insert_subset
      (hmem (Nat.lt_succ_self i)) (Set.insert_subset (hmem (Nat.lt_succ_self i)) ?_))
    exact Part.namesBefore_mono (Nat.le_succ i)
  refine ⟨out, d, fun todo => ?_, hd.mono hall, ((hc₁.trans hc₂).trans hc₃).trans hc₃d,
    .some (hreadOut.extends hc₃d), hasSwitch_of_extends hswitch₁ ((hc₂.trans hc₃).trans hc₃d),
    hasSwitch_of_extends hswitch₂ (hc₃.trans hc₃d), hshown⟩
  rw [stages, bind_eq_of_ok hfirst, bind_eq_of_ok hsecond, bind_eq_of_ok hadd]
  exact bind_eq_of_ok hbulb

/-- The stages are put there, and each of them is in the circuit from then on. -/
theorem exists_stages (len todo : Nat) {i : Nat} {carry : Option ComponentId}
    (h : Laid (Part.namesBefore i) c) (hcarry : Option.Rel c.ReadsAs carry (carryInto i))
    (hstaged : ∀ j < i, Staged c j) :
    ∃ out d, stages len todo i carry c = .ok (out, d) ∧ Laid (Part.namesBefore (i + todo)) d ∧
      Option.Rel d.ReadsAs out (carryInto (i + todo)) ∧ ∀ j < i + todo, Staged d j := by
  induction todo generalizing i carry c with
  | zero => exact ⟨carry, c, rfl, h, hcarry, hstaged⟩
  | succ todo ih =>
      obtain ⟨out, d, hstage, hd, hcd, hout, hlast⟩ := exists_stage len i h hcarry
      have hstaged' : ∀ j < i + 1, Staged d j := by
        intro j hj
        rcases Nat.lt_succ_iff_lt_or_eq.1 hj with hj | rfl
        · exact (hstaged j hj).extends hcd
        · exact hlast
      rw [hstage, ← Nat.add_assoc, Nat.add_right_comm]
      exact ih hd hout hstaged'

/-! ## The adder -/

variable {len : Nat} {value : String → Bool} {order : List String}

/-- What has the name of a switch and of a part is the switch of a bit. -/
theorem exists_of_inputName_mem {v : String}
    (h : inputName v ∈ insert Part.carry.name (Part.namesBefore len)) :
    ∃ i < len, v = s!"A{i}" ∨ v = s!"B{i}" := by
  have hne : ∀ w, inputName v ≠ "output-" ++ w := fun w hname => by
    have hchars := congrArg String.toList hname
    simp [inputName] at hchars
  rcases h with hcarry | ⟨p, hp, hname⟩
  · exact absurd hcarry (hne _)
  · cases p with
    | first i => exact ⟨i, hp, .inl (Synthesis.inputName_injective hname.symm)⟩
    | second i => exact ⟨i, hp, .inr (Synthesis.inputName_injective hname.symm)⟩
    | sum i => exact absurd hname.symm (hne _)
    | carry => exact absurd hname.symm (hne _)

/-- An adder of some length. -/
structure Adds (len : Nat) (c : Circuit) : Prop where
  run : Run Edit.Unforced .empty c
  staged : ∀ i < len, Staged c i
  /-- The last bulb shows the carry out of all stages. -/
  last : ∃ k ∈ carryInto len, HasBulb c "Cout" k
  switched : ∀ order, (∀ v, v ∈ order ↔ ∃ i < len, v = s!"A{i}" ∨ v = s!"B{i}") → Switched order c

/-- The sample is an adder. -/
theorem exists_rippleCarry (hlen : 0 < len) : ∃ c, rippleCarry len = .ok c ∧ Adds len c := by
  have hempty : Laid (Part.namesBefore 0) .empty := Laid.empty.mono (Set.empty_subset _)
  have hnone : Option.Rel Circuit.empty.ReadsAs none (carryInto 0) := .none
  obtain ⟨out, c, hstages, hc, hout, hstaged⟩ :=
    exists_stages len len hempty hnone fun j hj => absurd hj (Nat.not_lt_zero j)
  rw [Nat.zero_add] at hc hout hstaged
  obtain ⟨k, hk⟩ : ∃ k, carryInto len = some k := by
    obtain ⟨n, rfl⟩ := Nat.exists_eq_add_one.2 hlen
    exact ⟨_, rfl⟩
  rw [hk] at hout
  cases hout with
  | @some source _ hread =>
      have hnew : Part.carry.name ∉ Part.namesBefore len := fun hmem =>
        Part.name_mem_namesBefore.1 hmem
      obtain ⟨d, hbulb, hd, hcd, hshown⟩ := hc.exists_bulb hnew (3 * len) (2 * len) hread
      have hstaged' : ∀ i < len, Staged d i := fun i hi => (hstaged i hi).extends hcd
      refine ⟨d, ?_, hd.run, hstaged', ⟨k, hk, hshown⟩, fun order horder => ?_⟩
      · rw [rippleCarry, if_neg (Nat.ne_of_gt hlen), built, StateT.run, bind_eq_of_ok hstages]
        exact congrArg (·.map (·.2)) hbulb
      · refine hd.switched (fun v hv => (horder v).2 (exists_of_inputName_mem hv)) fun v hv => ?_
        obtain ⟨i, hi, rfl | rfl⟩ := (horder v).1 hv
        · exact (hstaged' i hi).first
        · exact (hstaged' i hi).second

/-- Two numbers are told by the values of the variables that stand for their bits. -/
theorem exists_value (a b : Fin len → Bool) : ∃ value : String → Bool,
    ∀ i : Fin len, value s!"A{i.val}" = a i ∧ value s!"B{i.val}" = b i := by
  have hfirst : Function.Injective fun i : Fin len => s!"A{i.val}" := fun i j h =>
    Fin.ext (append_repr_injective "A" h)
  have hsecond : Function.Injective fun i : Fin len => s!"B{i.val}" := fun i j h =>
    Fin.ext (append_repr_injective "B" h)
  have hdistinct : ∀ i j : Fin len, s!"A{i.val}" ≠ s!"B{j.val}" := fun i j h => by
    have hchars := congrArg String.toList h
    simp [toString] at hchars
  have hnames := hfirst.sumElim hsecond hdistinct
  exact ⟨Function.extend _ (Sum.elim a b) fun _ => false, fun i =>
    ⟨hnames.extend_apply _ _ (.inl i), hnames.extend_apply _ _ (.inr i)⟩⟩

/-- The settings of the switches of two numbers, in the order in which they come, are those of a
valuation. -/
theorem exists_order {a b : Fin len → Bool} {settings : List (ComponentId × Bool)}
    (h : ∀ p, p ∈ settings ↔
      ∃ i, p = (s!"input-A{i.val}", a i) ∨ p = (s!"input-B{i.val}", b i))
    (hvalue : ∀ i : Fin len, value s!"A{i.val}" = a i ∧ value s!"B{i.val}" = b i) :
    ∃ order : List String, settings = order.map (fun v => (inputName v, value v)) ∧
      ∀ v, v ∈ order ↔ ∃ i < len, v = s!"A{i}" ∨ v = s!"B{i}" := by
  have hrange : ∀ p ∈ settings, p ∈ Set.range fun v => (inputName v, value v) := by
    intro p hp
    obtain ⟨i, rfl | rfl⟩ := (h p).1 hp
    · exact ⟨s!"A{i.val}", congrArg (Prod.mk _) (hvalue i).1⟩
    · exact ⟨s!"B{i.val}", congrArg (Prod.mk _) (hvalue i).2⟩
  obtain ⟨order, rfl⟩ : settings ∈ Set.range (List.map fun v => (inputName v, value v)) := by
    rw [Set.range_list_map]
    exact hrange
  have hinjective : Function.Injective fun v => (inputName v, value v) := fun v w hvw =>
    Synthesis.inputName_injective (Prod.mk.inj hvw).1
  refine ⟨order, rfl, fun v => ?_⟩
  rw [← List.mem_map_of_injective hinjective, h]
  constructor
  · rintro ⟨i, hi | hi⟩
    · exact ⟨i, i.isLt, .inl (Synthesis.inputName_injective (Prod.mk.inj hi).1)⟩
    · exact ⟨i, i.isLt, .inr (Synthesis.inputName_injective (Prod.mk.inj hi).1)⟩
  · rintro ⟨i, hi, rfl | rfl⟩
    · exact ⟨⟨i, hi⟩, .inl (congrArg (Prod.mk _) (hvalue ⟨i, hi⟩).1)⟩
    · exact ⟨⟨i, hi⟩, .inr (congrArg (Prod.mk _) (hvalue ⟨i, hi⟩).2)⟩

end Samples

open Samples

/-- The ripple-carry adder adds. For every positive length it can be built and has no cycle. In
whatever state it is, setting the switches of two numbers bit by bit, in any order, succeeds, and
after one pass of a simulator that belongs to the circuit the bulbs show the sum of the numbers.
-/
theorem ripple_carry_adds {len : Nat} (hlen : 0 < len) : ∃ c, rippleCarry len = .ok c ∧
    c.hasCycle = false ∧
    ∀ (a b : Fin len → Bool) (settings : List (ComponentId × Bool)) (before : Circuit)
      (s : Simulator),
      (∀ p, p ∈ settings ↔ ∃ i, p = (s!"input-A{i.val}", a i) ∨ p = (s!"input-B{i.val}", b i)) →
      before.frame = c.frame → s.BelongsTo c →
      ∃ d, settings.foldlM (fun c p => c.setSwitch? p.1 p.2) before = some d ∧
        ∃ (sum : Fin len → Bool) (carry : Bool),
          (∀ i, ShowsBit (s.evaluate d).2.2 s!"output-S{i.val}" (sum i)) ∧
          ShowsBit (s.evaluate d).2.2 "output-Cout" carry ∧
          ∑ i, (sum i).toNat * 2 ^ i.val + carry.toNat * 2 ^ len =
            ∑ i, (a i).toNat * 2 ^ i.val + ∑ i, (b i).toNat * 2 ^ i.val := by
  obtain ⟨c, hbuilt, hc⟩ := exists_rippleCarry hlen
  have hwired : c.WellWired := hc.run.wellWired .empty
  refine ⟨c, hbuilt, hwired.hasCycle_eq_false_iff.2 hc.run.acyclic, ?_⟩
  intro a b settings before s hsettings hframe hs
  obtain ⟨value, hvalue⟩ := exists_value a b
  obtain ⟨order, rfl, horder⟩ := exists_order hsettings hvalue
  have hswitched := hc.switched order horder
  have hhas : ∀ v ∈ order, Synthesis.HasSwitch before v := fun v hv =>
    hasSwitch_of_frame hframe (hswitched.has v hv)
  obtain ⟨d, hset, hassigned⟩ := Synthesis.exists_setSwitches value hhas
  have hshows : ∀ {name e}, HasBulb c name e →
      ShowsBit (s.evaluate d).2.2 ("output-" ++ name) (e.eval value) := fun hbulb =>
    hswitched.showsBit hwired hframe hassigned hs hbulb
  obtain ⟨k, hk, hlast⟩ := hc.last
  refine ⟨d, List.foldlM_map.trans hset, fun i => (sumAt i).eval value, k.eval value,
    fun i => hshows (hc.staged i i.isLt).bulb, hshows hlast, ?_⟩
  have hsum := sum_add_carry value len
  rw [Option.mem_def.1 hk] at hsum
  simp only [Finset.sum_range, hvalue] at hsum
  exact hsum

/-- On two bits three and one add up to four, with the switches set from the highest bit down. -/
theorem ripple_carry_adds_three_one : ∃ c, rippleCarry 2 = .ok c ∧ c.hasCycle = false ∧
    ∃ d, [("input-A1", true), ("input-B1", false), ("input-A0", true), ("input-B0", true)].foldlM
        (fun c p => c.setSwitch? p.1 p.2) c = some d ∧
      ShowsBit (Simulator.new.evaluate d).2.2 "output-S0" false ∧
      ShowsBit (Simulator.new.evaluate d).2.2 "output-S1" false ∧
      ShowsBit (Simulator.new.evaluate d).2.2 "output-Cout" true := by
  have hsettings : ∀ p : ComponentId × Bool,
      p ∈ [("input-A1", true), ("input-B1", false), ("input-A0", true), ("input-B0", true)] ↔
        ∃ i : Fin 2, p = (s!"input-A{i.val}", true) ∨
          p = (s!"input-B{i.val}", (![true, false] : Fin 2 → Bool) i) := by
    intro p
    simp only [List.mem_cons, List.not_mem_nil, or_false, Fin.exists_fin_two]
    exact ⟨by tauto, by tauto⟩
  obtain ⟨c, hbuilt, hcycle, hadds⟩ := ripple_carry_adds Nat.two_pos
  obtain ⟨d, hset, sum, carry, hsums, hcarry, htotal⟩ :=
    hadds _ _ _ c .new hsettings rfl (Simulator.belongsTo_new c)
  have hbits : ∀ s0 s1 k : Bool, s0.toNat * 2 ^ 0 + s1.toNat * 2 ^ 1 + k.toNat * 2 ^ 2 = 4 →
      s0 = false ∧ s1 = false ∧ k = true := by decide
  obtain ⟨hs0, hs1, rfl⟩ := hbits (sum 0) (sum 1) carry (by simpa [Fin.sum_univ_two] using htotal)
  exact ⟨c, hbuilt, hcycle, d, hset, hs0 ▸ hsums 0, hs1 ▸ hsums 1, hcarry⟩

end LogicCircuit
