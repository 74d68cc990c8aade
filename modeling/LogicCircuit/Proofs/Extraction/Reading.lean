import LogicCircuit.Extraction
import LogicCircuit.Proofs.Simulation.Denotation

/-!
# Reading expressions off the wires

`Circuit.ReadsAs` relates a component to the expression that it computes, one rule for each kind
of component. The search `Circuit.nodeExpr?` keeps the gates that it is inside of, so that it
comes to an end on loops; the relation has no need to. `WellWired.nodeExpr?_eq_some_iff` says that
the two agree, and `WellWired.exists_readsAs_iff` where there is an expression at all: where every
gate that leads into the component has all its slots driven and no cycle leads into it.
-/

namespace LogicCircuit

namespace BinaryOp

/-- An operator with NAND and NOR spelled out as negations. -/
def spell : BinaryOp → Expr → Expr → Expr
  | .nand, a, b => .not (.binary .and a b)
  | .nor, a, b => .not (.binary .or a b)
  | op, a, b => .binary op a b

theorem expr?_gate (op : BinaryOp) (a b : Expr) : op.gate.expr? [a, b] = some (op.spell a b) := by
  cases op <;> rfl

@[simp] theorem arity_gate (op : BinaryOp) : op.gate.arity = 2 := by
  cases op <;> rfl

@[simp] theorem eval_spell (op : BinaryOp) (a b : Expr) (value : String → Bool) :
    (op.spell a b).eval value = op.apply (a.eval value) (b.eval value) := by
  cases op <;> rfl

end BinaryOp

/-- A gate is the inverter or computes a binary operator. -/
theorem Gate.eq_not_or_eq_gate (g : Gate) : g = .not ∨ ∃ op : BinaryOp, g = op.gate := by
  cases g with
  | not => exact .inl rfl
  | and => exact .inr ⟨.and, rfl⟩
  | or => exact .inr ⟨.or, rfl⟩
  | xor => exact .inr ⟨.xor, rfl⟩
  | nand => exact .inr ⟨.nand, rfl⟩
  | nor => exact .inr ⟨.nor, rfl⟩

namespace Circuit

/-- A component computes an expression in the variables that its sources are named for. -/
inductive ReadsAs (c : Circuit) : ComponentId → Expr → Prop where
  | source {id x s} : c.component? id = some x → x.kind = .source s →
      ReadsAs c id (s.expr x.label id)
  | inverter {id x a e} : c.component? id = some x → x.kind = .gate .not →
      c.driversOf id = [some a] → ReadsAs c a e → ReadsAs c id (.not e)
  | operator {id x a b e f} {op : BinaryOp} : c.component? id = some x → x.kind = .gate op.gate →
      c.driversOf id = [some a, some b] → ReadsAs c a e → ReadsAs c b f →
      ReadsAs c id (op.spell e f)

/-- Every gate that leads into a component has a wire on each of its slots. -/
def GatesDriven (c : Circuit) (id : ComponentId) : Prop :=
  ∀ a, c.driverGraph.Reaches id a → ∀ x, c.component? a = some x → x.kind.isGate → none ∉ x.slots

variable {c d : Circuit} {id a b : ComponentId} {x : Component} {e : Expr}
  {path : List ComponentId}

/-! ## What leads into a component -/

/-- What leads into a driver leads into the component. -/
theorem GatesDriven.driver (h : c.GatesDriven id) (ha : a ∈ c.driverGraph.next id) :
    c.GatesDriven a :=
  fun b hb => h b (.inr (hb.cons ha))

theorem GatesDriven.of_drivers
    (hself : ∀ x, c.component? id = some x → x.kind.isGate → none ∉ x.slots)
    (h : ∀ a ∈ c.driverGraph.next id, c.GatesDriven a) : c.GatesDriven id := by
  rintro b (rfl | hb)
  · exact hself
  · cases hb with
    | edge ha => exact h b ha b (.refl _ b)
    | cons ha hab => exact h _ ha b (.inr hab)

/-! ## The search -/

/-- One step of the search: a source stands for itself, a gate is opened and its slots are read.
-/
theorem nodeExpr?_of_component? (hx : c.component? id = some x) :
    c.nodeExpr? path id = match x.kind with
      | .source s => some (s.expr x.label id)
      | .sink _ => none
      | .gate g =>
        if id ∈ path then none
        else ((c.driversOf id).mapM fun d : Option ComponentId =>
          d.bind (c.nodeExpr? (id :: path))).bind g.expr? := by
  rw [nodeExpr?]
  split
  · simp_all
  · rename_i y hy
    obtain rfl := Option.some.inj (hx.symm.trans hy)
    cases x.kind with
    | source s => rfl
    | sink s => rfl
    | gate g =>
        dsimp only
        split
        · rfl
        · refine congrArg (Option.bind · g.expr?) (congrArg (List.mapM · _) (funext fun d => ?_))
          cases d <;> rfl

/-- The search finds nothing without a component. -/
theorem exists_of_nodeExpr? (he : c.nodeExpr? path id = some e) :
    ∃ x, c.component? id = some x := by
  rw [nodeExpr?] at he
  split at he
  · cases he
  · exact ⟨_, by assumption⟩

/-- What the search finds is an expression of the component. -/
theorem WellWired.readsAs_of_nodeExpr? (h : c.WellWired) {path : List ComponentId}
    {id : ComponentId} {e : Expr} (he : c.nodeExpr? path id = some e) : c.ReadsAs id e := by
  obtain ⟨x, hx⟩ := exists_of_nodeExpr? he
  have hlength := h.length_driversOf hx
  rw [nodeExpr?_of_component? hx] at he
  cases hk : x.kind with
  | sink s => simp [hk] at he
  | source s =>
      simp only [hk, Option.some.injEq] at he
      exact he ▸ .source hx hk
  | gate g =>
      simp only [hk] at he hlength
      by_cases hnew : id ∈ path
      · simp [hnew] at he
      rw [if_neg hnew] at he
      obtain ⟨es, hes, he⟩ := Option.bind_eq_some_iff.1 he
      rcases g.eq_not_or_eq_gate with rfl | ⟨op, rfl⟩
      · obtain ⟨d, hd⟩ := List.length_eq_one_iff.1 hlength
        simp only [hd, List.mapM_cons, List.mapM_nil, Option.bind_eq_bind, Option.pure_def,
          Option.bind_eq_some_iff, Option.some.injEq] at hes
        obtain ⟨ea, ⟨a, rfl, ha⟩, _, rfl, rfl⟩ := hes
        obtain rfl := Option.some.inj he
        exact .inverter hx hk hd (h.readsAs_of_nodeExpr? ha)
      · obtain ⟨d, d', hd⟩ := List.length_eq_two.1 (hlength.trans op.arity_gate)
        simp only [hd, List.mapM_cons, List.mapM_nil, Option.bind_eq_bind, Option.pure_def,
          Option.bind_eq_some_iff, Option.some.injEq] at hes
        obtain ⟨ea, ⟨a, rfl, ha⟩, _, ⟨eb, ⟨b, rfl, hb⟩, _, rfl, rfl⟩, rfl⟩ := hes
        rw [op.expr?_gate, Option.some.injEq] at he
        exact he ▸ .operator hx hk hd (h.readsAs_of_nodeExpr? ha) (h.readsAs_of_nodeExpr? hb)
termination_by Traversal.room c.driverGraph path
decreasing_by all_goals exact Traversal.room_cons_lt (mem_ids_of_component? hx) hnew

/-! ## Where there is an expression -/

namespace ReadsAs

/-- A component with an expression is not a sink. -/
theorem exists_component (h : c.ReadsAs id e) :
    ∃ x, c.component? id = some x ∧ ¬ x.kind.isSink := by
  cases h with
  | source hx hk => exact ⟨_, hx, by simp [hk, Kind.isSink]⟩
  | inverter hx hk => exact ⟨_, hx, by simp [hk, Kind.isSink]⟩
  | operator hx hk => exact ⟨_, hx, by simp [hk, Kind.isSink]⟩

/-- A component has the same expression in another circuit, if sources read the same there and
gates have the same drivers. -/
theorem transfer
    (hsource : ∀ {a x s}, c.component? a = some x → x.kind = .source s → ∃ y t,
      d.component? a = some y ∧ y.kind = .source t ∧ t.expr y.label a = s.expr x.label a)
    (hgate : ∀ {a x g}, c.component? a = some x → x.kind = .gate g →
      (∃ y, d.component? a = some y ∧ y.kind = .gate g) ∧ d.driversOf a = c.driversOf a)
    (h : c.ReadsAs id e) : d.ReadsAs id e := by
  induction h with
  | source hx hk =>
      obtain ⟨y, t, hy, ht, hexpr⟩ := hsource hx hk
      exact hexpr ▸ .source hy ht
  | inverter hx hk hd _ ih =>
      obtain ⟨⟨y, hy, hg⟩, hsame⟩ := hgate hx hk
      exact .inverter hy hg (hsame.trans hd) ih
  | operator hx hk hd _ _ iha ihb =>
      obtain ⟨⟨y, hy, hg⟩, hsame⟩ := hgate hx hk
      exact .operator hy hg (hsame.trans hd) iha ihb

/-- What passes from the drivers of a component to the component, while all its slots are driven,
holds where there is an expression. -/
theorem of_drivers {P : ComponentId → Prop} (hc : c.WellWired)
    (hstep : ∀ {id x}, c.component? id = some x → none ∉ c.driversOf id →
      (∀ a ∈ c.driverGraph.next id, P a) → P id) (h : c.ReadsAs id e) : P id := by
  induction h with
  | source hx hk =>
      have hnone := hc.length_driversOf hx
      simp only [hk, Kind.arity, List.length_eq_zero_iff] at hnone
      exact hstep hx (by simp [hnone]) (by simp [next_driverGraph, hnone])
  | inverter hx _ hd _ ih =>
      exact hstep hx (by simp [hd]) (by simpa [next_driverGraph, hd] using ih)
  | operator hx _ hd _ _ iha ihb =>
      exact hstep hx (by simp [hd]) (by simpa [next_driverGraph, hd] using ⟨iha, ihb⟩)

/-- No cycle leads into a component with an expression. -/
theorem acyclicCone (hc : c.WellWired) (h : c.ReadsAs id e) : c.AcyclicCone id :=
  h.of_drivers hc fun _ _ ih => .of_drivers ih

/-- Only gates with all slots driven lead into a component with an expression. -/
theorem gatesDriven (hc : c.WellWired) (h : c.ReadsAs id e) : c.GatesDriven id := by
  refine h.of_drivers hc fun {id x} hx hdriven ih => .of_drivers (fun y hy _ => ?_) ih
  obtain rfl := Option.some.inj (hx.symm.trans hy)
  exact mt (hc.none_mem_driversOf_iff hx).2 hdriven

/-- The search finds the expression of a component that leads to none of the open gates. -/
theorem nodeExpr?_eq (hc : c.WellWired) (h : c.ReadsAs id e)
    (hpath : ∀ b ∈ path, ¬ c.driverGraph.Reaches id b) : c.nodeExpr? path id = some e := by
  -- a gate that leads to itself would lie on a cycle in its own cone
  have hself : ∀ {id e path a}, c.ReadsAs id e → (∀ b ∈ path, ¬ c.driverGraph.Reaches id b) →
      a ∈ c.driverGraph.next id → ∀ b ∈ id :: path, ¬ c.driverGraph.Reaches a b := by
    intro id e path a h hpath ha b hb hab
    rcases List.mem_cons.1 hb with rfl | hb
    · exact h.acyclicCone hc b (.refl _ b) (hab.cons ha)
    · exact hpath b hb (.inr (hab.cons ha))
  induction h generalizing path with
  | source hx hk => rw [nodeExpr?_of_component? hx, hk]
  | @inverter id x a e hx hk hd h ih =>
      have hnew : id ∉ path := fun hid => hpath id hid (.refl _ id)
      have hbelow := hself (.inverter hx hk hd h) hpath (a := a) (by simp [next_driverGraph, hd])
      simp [nodeExpr?_of_component? hx, hk, hnew, hd, ih hbelow, Gate.expr?]
  | @operator id x a b e f op hx hk hd ha hb iha ihb =>
      have hnew : id ∉ path := fun hid => hpath id hid (.refl _ id)
      have hop : c.ReadsAs id (op.spell e f) := .operator hx hk hd ha hb
      have hbelow := hself hop hpath (a := a) (by simp [next_driverGraph, hd])
      have hbelow' := hself hop hpath (a := b) (by simp [next_driverGraph, hd])
      simp [nodeExpr?_of_component? hx, hk, hnew, hd, iha hbelow, ihb hbelow', op.expr?_gate]

end ReadsAs

/-- The search from a component finds its expression and nothing else. -/
theorem WellWired.nodeExpr?_eq_some_iff (h : c.WellWired) :
    c.nodeExpr? [] id = some e ↔ c.ReadsAs id e :=
  ⟨h.readsAs_of_nodeExpr?, fun he => he.nodeExpr?_eq h (by simp)⟩

/-- Where all gates are driven and there is no cycle, there is an expression. The drivers have
their turn before the component, so the induction goes along the order of evaluation. -/
theorem WellWired.exists_readsAs (h : c.WellWired) {id : ComponentId} {x : Component}
    (hx : c.component? id = some x) (hsink : ¬ x.kind.isSink) (hcone : c.AcyclicCone id)
    (hdriven : c.GatesDriven id) : ∃ e, c.ReadsAs id e := by
  have hlength := h.length_driversOf hx
  have hdriver : ∀ a, some a ∈ c.driversOf id → ∃ e, c.ReadsAs a e := by
    intro a ha
    have hnext := mem_next_of_mem_driversOf ha
    have hbefore : Precedes c.evaluationOrder.closed a id := h.precedes_of_acyclicCone hcone hnext
    obtain ⟨y, hy, hout⟩ := h.component?_driver hnext
    exact h.exists_readsAs hy hout (hcone.driver hnext) (hdriven.driver hnext)
  cases hk : x.kind with
  | sink s => simp [hk, Kind.isSink] at hsink
  | source s => exact ⟨_, .source hx hk⟩
  | gate g =>
      have hall : none ∉ c.driversOf id := by
        rw [h.none_mem_driversOf_iff hx]
        exact hdriven id (.refl _ id) x hx (by simp [hk, Kind.isGate])
      rw [hk] at hlength
      rcases g.eq_not_or_eq_gate with rfl | ⟨op, rfl⟩
      · obtain ⟨d, hd⟩ := List.length_eq_one_iff.1 hlength
        cases d with
        | none => simp [hd] at hall
        | some a =>
            obtain ⟨e, he⟩ := hdriver a (by simp [hd])
            exact ⟨_, .inverter hx hk hd he⟩
      · obtain ⟨d, d', hd⟩ := List.length_eq_two.1 (hlength.trans op.arity_gate)
        cases d with
        | none => simp [hd] at hall
        | some a =>
            cases d' with
            | none => simp [hd] at hall
            | some b =>
                obtain ⟨e, he⟩ := hdriver a (by simp [hd])
                obtain ⟨f, hf⟩ := hdriver b (by simp [hd])
                exact ⟨_, .operator hx hk hd he hf⟩
termination_by c.evaluationOrder.closed.idxOf id
decreasing_by exact hbefore

/-- A component has an expression exactly if it is a source or a gate, all gates that lead into it
are driven on all slots, and no cycle leads into it. -/
theorem WellWired.exists_readsAs_iff (h : c.WellWired) : (∃ e, c.ReadsAs id e) ↔
    (∃ x, c.component? id = some x ∧ ¬ x.kind.isSink) ∧ c.GatesDriven id ∧ c.AcyclicCone id := by
  constructor
  · rintro ⟨e, he⟩
    exact ⟨he.exists_component, he.gatesDriven h, he.acyclicCone h⟩
  · rintro ⟨⟨x, hx, hsink⟩, hdriven, hcone⟩
    exact h.exists_readsAs hx hsink hcone hdriven

end Circuit

end LogicCircuit
