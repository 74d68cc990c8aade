import LogicCircuit.Proofs.Circuit.Growth
import LogicCircuit.Proofs.Expr.NormalForms
import LogicCircuit.Proofs.Extraction.Reading

/-!
# Building a circuit for an expression

While `Synthesis.build` works, the circuit is `Stocked`: it holds a switch for each variable,
constants, and gates whose numbers are below the number of components, each under the name of its
kind. So a new gate has a new name, nothing leaves it while its operands are connected, and no
connection is refused (`Stocked.exists_addGate`). What is there already keeps its drivers, so
every subterm has a component that stands for it from then on (`StandsFor`), nothing else is made,
and there is one more gate for each operator (`Grown`): `exists_build` by induction on the
expression. The circuit with its bulb is described by `Realizes`, and where its components come
from by `Shaped`.
-/

namespace LogicCircuit

/-- The expression with every NAND and NOR spelled out as a negation. -/
def Expr.spelled : Expr → Expr
  | var name => var name
  | const on => const on
  | not e => not e.spelled
  | binary op a b => op.spell a.spelled b.spelled

/-- Whether an expression is a variable or a constant. -/
def Expr.isLeaf : Expr → Bool
  | var _ | const _ => true
  | _ => false

/-- The gates of the operators, with repetitions. -/
def Expr.gates : Expr → List Gate
  | var _ | const _ => []
  | not e => .not :: e.gates
  | binary op a b => op.gate :: (a.gates ++ b.gates)

/-- What is read off a circuit is read off every extension. -/
theorem Circuit.ReadsAs.extends {c d : Circuit} {id : ComponentId} {e : Expr} (h : c.ReadsAs id e)
    (hcd : c.Extends d) : d.ReadsAs id e :=
  h.transfer (fun {_ x s} hx hk => ⟨x, s, hcd.component hx, hk, rfl⟩)
    fun {_ x _} hx hk => ⟨⟨x, hcd.component hx, hk⟩, hcd.drivers hx⟩

/-- One more component is one more gate if it is one. -/
theorem Circuit.SameBut.perm_gateFunctions {c d : Circuit} {id : ComponentId} {x : Component}
    (h : c.SameBut id d) (hnew : c.component? id = none) (hx : d.component? id = some x) :
    d.gateFunctions.Perm (x.kind.gate?.toList ++ c.gateFunctions) := by
  have hentries := ((h.perm_entries hnew hx).filter (·.kind.isGate)).filterMap (·.kind.gate?)
  refine hentries.trans (.of_eq ?_)
  cases hk : x.kind <;> simp [gateFunctions, gates, hk, Kind.isGate, Kind.gate?]

namespace Synthesis

/-! ## Roles -/

theorem inputName_injective : Function.Injective inputName := fun _ _ h =>
  (String.append_right_inj "input-").1 h

/-- What a component of a built circuit is there for. -/
inductive Role where
  /-- The switch of a variable. -/
  | switch (v : String)
  /-- The source of a constant. -/
  | constant (on : Bool)
  /-- The gate of some number. -/
  | gate (n : Nat)
  /-- The bulb. -/
  | output

/-- The kind of the source of a constant. -/
def constantKind (on : Bool) : SourceKind := if on then .high else .low

namespace Role

/-- The name of the component. -/
def name : Role → ComponentId
  | switch v => inputName v
  | constant on => constantName on
  | gate n => s!"gate-{n}"
  | output => outputName

/-- The letter that the name starts with. -/
def initial : Role → Char
  | switch _ => 'i'
  | constant _ => 'c'
  | gate _ => 'g'
  | output => 'o'

theorem head?_name (r : Role) : r.name.toList.head? = some r.initial := by
  cases r with
  | switch v => simp [name, initial, inputName]
  | constant on => cases on <;> decide
  | gate n =>
      have hname : (gate n).name = "gate-" ++ n.repr := rfl
      simp [hname, initial]
  | output => decide

theorem name_ne_empty (r : Role) : r.name ≠ "" := by
  intro h
  have hhead := r.head?_name
  rw [h] at hhead
  cases hhead

/-- The name tells the role. -/
theorem name_injective : Function.Injective name := by
  intro r s h
  have hinitial : r.initial = s.initial := by
    rw [← Option.some.injEq, ← r.head?_name, h, s.head?_name]
  -- the initials leave the pairs of one kind, whose names start alike
  cases r <;> cases s <;> simp only [initial, Char.reduceEq] at hinitial
  case switch.switch => exact congrArg switch (inputName_injective h)
  case constant.constant a b =>
    have hall : ∀ a b, constantName a = constantName b → a = b := by decide
    exact congrArg constant (hall a b h)
  case gate.gate => exact congrArg gate (append_repr_injective "gate-" h)
  case output.output => rfl

/-- What a component in this role is, in a circuit for these variables with so many components. -/
def Fits (names : List String) (count : Nat) (x : Component) : Role → Prop
  | switch v => v ∈ names ∧ (∃ level, x.kind = .source ⟨.switch, level⟩) ∧ x.label = some v
  | constant on => x.kind = .source (.ofKind (constantKind on)) ∧ x.label = none
  | gate n => n < count ∧ ∃ g, x.kind = .gate g
  | output => x.kind = .sink (.ofKind .bulb)

variable {r : Role} {names names' : List String} {count count' : Nat} {x : Component}

theorem Fits.mono (h : r.Fits names count x) (hnames : names ⊆ names') (hcount : count ≤ count') :
    r.Fits names' count' x := by
  cases r with
  | switch v => exact h.imp_left (hnames ·)
  | constant on => exact h
  | gate n => exact h.imp_left (Nat.lt_of_lt_of_le · hcount)
  | output => exact h

/-- The bulb is the only sink. -/
theorem Fits.not_isSink (h : r.Fits names count x) (hr : r ≠ .output) : ¬ x.kind.isSink := by
  cases r with
  | switch v =>
      obtain ⟨_, ⟨level, hk⟩, _⟩ := h
      simp [hk, Kind.isSink]
  | constant on => simp [h.1, Kind.isSink]
  | gate n =>
      obtain ⟨_, g, hk⟩ := h
      simp [hk, Kind.isSink]
  | output => exact absurd rfl hr

end Role

/-! ## Components and subterms -/

/-- What a component stands for: a switch for its variable, a constant for itself, and a gate for
an operator on what its drivers stand for. Only variables and constants are shared. -/
inductive StandsFor (c : Circuit) : ComponentId → Expr → Prop where
  | var {id v x level} : id = inputName v → c.component? id = some x →
      x.kind = .source ⟨.switch, level⟩ → x.label = some v → StandsFor c id (.var v)
  | const {id on x} : id = constantName on → c.component? id = some x →
      x.kind = .source (.ofKind (constantKind on)) → x.label = none → StandsFor c id (.const on)
  | not {id x a e} : c.component? id = some x → x.kind = .gate .not →
      c.driversOf id = [some a] → StandsFor c a e → StandsFor c id (.not e)
  | binary {id x a b e f} {op : BinaryOp} : c.component? id = some x → x.kind = .gate op.gate →
      c.driversOf id = [some a, some b] → StandsFor c a e → StandsFor c b f →
      (a = b → f.isLeaf) → StandsFor c id (.binary op e f)

namespace StandsFor

variable {c d : Circuit} {id : ComponentId} {e : Expr}

/-- What stands for an expression is there. -/
theorem exists_component (h : StandsFor c id e) : ∃ x, c.component? id = some x := by
  cases h with
  | var _ hx | const _ hx | not hx | binary hx => exact ⟨_, hx⟩

/-- What stands for an expression stands for it in every extension. -/
theorem mono (h : StandsFor c id e) (hcd : c.Extends d) : StandsFor d id e := by
  induction h with
  | var hid hx hk hlabel => exact .var hid (hcd.component hx) hk hlabel
  | const hid hx hk hlabel => exact .const hid (hcd.component hx) hk hlabel
  | not hx hk hdrivers _ ih =>
      exact .not (hcd.component hx) hk ((hcd.drivers hx).trans hdrivers) ih
  | binary hx hk hdrivers _ _ hshared ihe ihf =>
      exact .binary (hcd.component hx) hk ((hcd.drivers hx).trans hdrivers) ihe ihf hshared

/-- The expression with NAND and NOR spelled out is read off. -/
theorem readsAs (h : StandsFor c id e) : c.ReadsAs id e.spelled := by
  induction h with
  | var _ hx hk hlabel =>
      have hread := Circuit.ReadsAs.source hx hk
      rwa [hlabel] at hread
  | @const id on x _ hx hk hlabel =>
      have hread := Circuit.ReadsAs.source hx hk
      rw [hlabel] at hread
      cases on <;> exact hread
  | not hx hk hdrivers _ ih => exact .inverter hx hk hdrivers ih
  | binary hx hk hdrivers _ _ _ ihe ihf => exact .operator hx hk hdrivers ihe ihf

end StandsFor

/-- A circuit grew by what some expressions need: it kept what it had, what is new stands for a
subterm of one of them, and there is a gate more for each operator. -/
structure Grown (c d : Circuit) (es : List Expr) : Prop where
  /-- What was there is there. -/
  extension : c.Extends d
  /-- What is new stands for a subterm. -/
  origin : ∀ {a x}, d.component? a = some x →
    c.component? a = some x ∨ ∃ e ∈ es, ∃ f, Expr.Subterm f e ∧ StandsFor d a f
  /-- There is a gate more for each operator. -/
  gates : d.gateFunctions.Perm (es.flatMap Expr.gates ++ c.gateFunctions)

namespace Grown

variable {c d d' : Circuit} {id : ComponentId} {x : Component} {es es' : List Expr} {e : Expr}

theorem refl (c : Circuit) : Grown c c [] := ⟨.refl c, fun h => .inl h, .refl _⟩

theorem trans (h : Grown c d es) (h' : Grown d d' es') : Grown c d' (es ++ es') := by
  refine ⟨h.extension.trans h'.extension, fun hx => ?_, ?_⟩
  · rcases h'.origin hx with hx | ⟨e, he, f, hf, hstands⟩
    · refine (h.origin hx).imp_right ?_
      rintro ⟨e, he, f, hf, hstands⟩
      exact ⟨e, List.mem_append_left _ he, f, hf, hstands.mono h'.extension⟩
    · exact .inr ⟨e, List.mem_append_right _ he, f, hf, hstands⟩
  · rw [List.flatMap_append, List.append_assoc]
    refine h'.gates.trans ((h.gates.append_left _).trans ?_)
    rw [← List.append_assoc, ← List.append_assoc]
    exact List.perm_append_comm.append_right _

/-- What grew by the operands of an expression without operators of its own grew by it. -/
theorem cover (h : Grown c d es) (hsub : ∀ f ∈ es, Expr.Subterm f e)
    (hgates : e.gates = es.flatMap Expr.gates) : Grown c d [e] := by
  refine ⟨h.extension, fun hx => (h.origin hx).imp_right ?_, by simpa [hgates] using h.gates⟩
  rintro ⟨e', he', f, hf, hstands⟩
  exact ⟨e, List.mem_singleton_self e, f, hf.trans (hsub e' he'), hstands⟩

/-- One more component stands for an expression over those by whose needs the circuit grew. -/
theorem add (h : Grown c d es) (hnew : d.component? id = none) (hsame : d.SameBut id d')
    (hx : d'.component? id = some x) (hstands : StandsFor d' id e)
    (hsub : ∀ f ∈ es, Expr.Subterm f e)
    (hgates : e.gates = x.kind.gate?.toList ++ es.flatMap Expr.gates) : Grown c d' [e] := by
  have hextends := hsame.extends hnew
  refine ⟨h.extension.trans hextends, fun {a y} hy => ?_, ?_⟩
  · by_cases ha : a = id
    · subst ha
      exact .inr ⟨e, List.mem_singleton_self e, e, .self, hstands⟩
    · refine (h.origin ((hsame.component ha).symm.trans hy)).imp_right ?_
      rintro ⟨e', he', f, hf, hstands⟩
      exact ⟨e, List.mem_singleton_self e, f, hf.trans (hsub e' he'), hstands.mono hextends⟩
  · refine (hsame.perm_gateFunctions hnew hx).trans ((h.gates.append_left _).trans (.of_eq ?_))
    simp [hgates]

end Grown

/-! ## Roles in a circuit -/

/-- A circuit with a switch for each variable in which every component has its role, but without
the bulb. -/
structure Stocked (names : List String) (c : Circuit) : Prop where
  /-- The circuit is well wired. -/
  wired : c.WellWired
  /-- There is nothing but switches, constants and gates. -/
  parts : ∀ {id x}, c.component? id = some x →
    ∃ r : Role, r ≠ .output ∧ id = r.name ∧ r.Fits names c.components.size x
  /-- Each variable has its switch. -/
  switches : ∀ {v}, v ∈ names → ∃ x, c.component? (inputName v) = some x

variable {names : List String} {c d : Circuit} {id a : ComponentId} {x : Component} {r : Role}
  {v : String} {on : Bool}

namespace Stocked

/-- What has the name of a role is in that role. -/
theorem fits (h : Stocked names c) (hx : c.component? r.name = some x) :
    r ≠ .output ∧ r.Fits names c.components.size x := by
  obtain ⟨s, hs, hname, hfits⟩ := h.parts hx
  obtain rfl := Role.name_injective hname
  exact ⟨hs, hfits⟩

/-- A name is new if nothing fits its role. -/
theorem new_of_not_fits (h : Stocked names c)
    (hr : r ≠ .output → ∀ x, ¬ r.Fits names c.components.size x) :
    c.component? r.name = none := by
  cases hx : c.component? r.name with
  | none => rfl
  | some x => exact absurd (h.fits hx).2 (hr (h.fits hx).1 x)

/-- The next number gives a gate a new name. -/
theorem gate_new (h : Stocked names c) :
    c.component? (Role.gate c.components.size).name = none :=
  h.new_of_not_fits fun _ _ hfits => Nat.lt_irrefl _ hfits.1

/-- The name of the bulb is new. -/
theorem output_new (h : Stocked names c) : c.component? outputName = none :=
  h.new_of_not_fits (r := .output) fun hr => absurd rfl hr

/-- One more component, under a new name and with whatever drives it, keeps a circuit stocked. It
may be the switch of a further variable. -/
theorem grow {names' : List String} (h : Stocked names c) (hd : d.WellWired)
    (hnew : c.component? r.name = none) (hsame : c.SameBut r.name d)
    (hsize : d.components.size = c.components.size + 1) (hx : d.component? r.name = some x)
    (hr : r ≠ .output) (hfits : r.Fits names' d.components.size x) (hsub : names ⊆ names')
    (hin : ∀ v ∈ names', v ∈ names ∨ r = .switch v) : Stocked names' d := by
  refine ⟨hd, fun {a y} hy => ?_, fun hv => ?_⟩
  · by_cases ha : a = r.name
    · subst ha
      obtain rfl := Option.some.inj (hx.symm.trans hy)
      exact ⟨r, hr, rfl, hfits⟩
    · obtain ⟨s, hs, hname, hold⟩ := h.parts ((hsame.component ha).symm.trans hy)
      exact ⟨s, hs, hname, hold.mono hsub (by omega)⟩
  · rcases hin _ hv with hv | rfl
    · obtain ⟨y, hy⟩ := h.switches hv
      exact ⟨y, (hsame.extends hnew).component hy⟩
    · exact ⟨x, hx⟩

/-- The switch of a variable stands for it. -/
theorem standsFor_var (h : Stocked names c) (hv : v ∈ names) :
    StandsFor c (inputName v) (.var v) := by
  obtain ⟨x, hx⟩ := h.switches hv
  obtain ⟨_, _, ⟨level, hk⟩, hlabel⟩ := h.fits (r := .switch v) hx
  exact .var rfl hx hk hlabel

/-- A constant that is there stands for itself. -/
theorem standsFor_const (h : Stocked names c) (hx : c.component? (constantName on) = some x) :
    StandsFor c (constantName on) (.const on) := by
  obtain ⟨_, hk, hlabel⟩ := h.fits (r := .constant on) hx
  exact .const rfl hx hk hlabel

end Stocked

/-! ## Gates -/

/-- A component while its operands are connected: the slots are driven up to some slot, and no
wire leaves it. -/
structure Filled (c : Circuit) (id : ComponentId) (kind : Kind) (placed : List ComponentId)
    (free : Nat) : Prop where
  /-- It has its kind. -/
  component : ∃ x, c.component? id = some x ∧ x.kind = kind
  /-- The slots are driven in order, and so many remain. -/
  drivers : c.driversOf id = placed.map some ++ List.replicate free none
  /-- No wire comes from it. -/
  idle : ∀ k w, c.wire? k = some w → w.source ≠ id

/-- A component that was placed is ready for its operands. -/
theorem filled_place (hc : c.WellWired) (hx : x.WellFormed) (hnew : c.component? x.id = none) :
    Filled (c.place x) x.id x.kind [] x.kind.arity := by
  refine ⟨⟨x.unplugged, c.component?_place_self x, rfl⟩, ?_, fun k w hw hsource => ?_⟩
  · rw [c.driversOf_place x, hx.slots]
    rfl
  · obtain ⟨y, hy, _⟩ := hc.source hw
    rw [hsource, hnew] at hy
    cases hy

/-- One more operand is accepted and takes the next slot. -/
theorem Filled.connect {kind : Kind} {placed : List ComponentId} {free : Nat}
    (h : Filled c id kind placed (free + 1)) (hc : c.WellWired) (hne : a ≠ id)
    (ha : c.component? a = some x) (hout : ¬ x.kind.isSink) :
    ∃ k d, c.connect a id placed.length = .ok (k, d) ∧ d.WellWired ∧ c.SameBut id d ∧
      d.components.size = c.components.size ∧ Filled d id kind (placed ++ [a]) free := by
  obtain ⟨⟨t, ht, hkind⟩, hdrivers, hidle⟩ := h
  have hslot : t.slots[placed.length]? = some none := by
    refine hc.slot_of_driversOf ht ?_
    rw [hdrivers, List.getElem?_append_right (by simp)]
    simp
  have hconnect := hc.connect_eq_attach ha hout ht hslot (Circuit.not_reaches_of_idle hidle hne)
  have hwired := hc.wireUp hconnect
  refine ⟨(c.attach a id placed.length).1, (c.attach a id placed.length).2, hconnect, hwired,
    hc.sameBut_attach .., Circuit.size_attach .., ?_⟩
  refine ⟨⟨_, Circuit.component?_attach_target ht, hkind⟩, ?_, fun k w hw => ?_⟩
  · rw [hc.driversOf_attach ht, hdrivers, List.set_append_right _ _ (by simp)]
    simp [List.replicate_succ]
  · rcases Circuit.wire?_attach_cases hw with ⟨_, rfl⟩ | hw
    · exact hne
    · exact hidle k w hw

/-- All operands are accepted. -/
theorem Filled.connectAll {kind : Kind} {operands placed : List ComponentId}
    (h : Filled c id kind placed operands.length) (hc : c.WellWired)
    (hops : ∀ a ∈ operands, a ≠ id ∧ ∃ y, c.component? a = some y ∧ ¬ y.kind.isSink) :
    ∃ d, connectAll id operands placed.length c = .ok d ∧ d.WellWired ∧ c.SameBut id d ∧
      d.components.size = c.components.size ∧ Filled d id kind (placed ++ operands) 0 := by
  induction operands generalizing c placed with
  | nil => exact ⟨c, rfl, hc, .refl _ c, rfl, by simpa using h⟩
  | cons a operands ih =>
      obtain ⟨hne, y, hy, hout⟩ := hops a List.mem_cons_self
      obtain ⟨k, c', hconnect, hwired, hsame, hsize, h'⟩ := h.connect hc hne hy hout
      have hops' : ∀ b ∈ operands, b ≠ id ∧ ∃ y, c'.component? b = some y ∧ ¬ y.kind.isSink := by
        intro b hb
        obtain ⟨hbne, y, hy, hyout⟩ := hops b (List.mem_cons_of_mem _ hb)
        exact ⟨hbne, y, (hsame.component hbne).trans hy, hyout⟩
      obtain ⟨d, hd, hdwired, hdsame, hdsize, hfilled⟩ := ih h' hwired hops'
      refine ⟨d, ?_, hdwired, hsame.trans hdsame, hdsize.trans hsize, by simpa using hfilled⟩
      rw [Synthesis.connectAll, hconnect]
      simpa using hd

/-- A gate is added under a new name and driven by its operands. -/
theorem Stocked.exists_addGate (h : Stocked names c) (g : Gate) (position : Point)
    (operands : List ComponentId) (harity : operands.length = g.arity)
    (hops : ∀ a ∈ operands, ∃ y, c.component? a = some y) :
    ∃ id x d, addGate g position operands c = .ok (id, d) ∧ Stocked names d ∧
      c.component? id = none ∧ c.SameBut id d ∧
      d.component? id = some x ∧ x.kind = .gate g ∧ d.driversOf id = operands.map some := by
  have hnew := h.gate_new
  set r := Role.gate c.components.size
  set x := (Component.gate g position).withId r.name
  have hformed : x.WellFormed := (Component.wellFormed_gate g position).withId r.name
  have hadd : c.add x = (r.name, c.place x) := Circuit.add_eq_place r.name_ne_empty hnew
  have hplaced := c.sameBut_place x
  have hready : Filled (c.place x) r.name (.gate g) [] operands.length :=
    harity ▸ filled_place h.wired hformed hnew
  have hops' : ∀ a ∈ operands, a ≠ r.name ∧
      ∃ y, (c.place x).component? a = some y ∧ ¬ y.kind.isSink := by
    intro a ha
    obtain ⟨y, hy⟩ := hops a ha
    have hne : a ≠ r.name := by
      rintro rfl
      rw [hnew] at hy
      cases hy
    obtain ⟨s, hs, _, hfits⟩ := h.parts hy
    exact ⟨hne, y, (hplaced.component hne).trans hy, hfits.not_isSink hs⟩
  obtain ⟨d, hd, hwired, hsame, hsize, ⟨y, hy, hkind⟩, hdrivers, _⟩ :=
    hready.connectAll (h.wired.place hformed hnew) hops'
  have hcd : c.SameBut r.name d := hplaced.trans hsame
  have hgrown : d.components.size = c.components.size + 1 := hsize.trans (Circuit.size_place hnew)
  refine ⟨r.name, y, d, ?_, ?_, hnew, hcd, hy, hkind, by simpa using hdrivers⟩
  · have hall : addGate g position operands c =
        (Synthesis.connectAll r.name operands 0 (c.add x).2).map (r.name, ·) := rfl
    rw [hall, hadd]
    exact congrArg (Except.map (r.name, ·)) hd
  · have hfits : r.Fits names d.components.size y := ⟨by omega, g, hkind⟩
    exact h.grow hwired hnew hcd hgrown hy (by simp) hfits (fun _ hv => hv) fun _ => .inl

/-! ## Constants and switches -/

/-- A constant is there afterwards. -/
theorem Stocked.addConstant (h : Stocked names c) (on : Bool) (row : Float) :
    Stocked names (addConstant on row c) ∧ Grown c (addConstant on row c) [.const on] ∧
      StandsFor (addConstant on row c) (constantName on) (.const on) := by
  unfold Synthesis.addConstant
  split
  case isTrue hcontains =>
    obtain ⟨x, hx⟩ := Option.isSome_iff_exists.1 hcontains
    exact ⟨h, (Grown.refl c).cover (by simp) rfl, h.standsFor_const hx⟩
  case isFalse hcontains =>
    have hnew : c.component? (constantName on) = none := by
      simpa [Roster.contains, Circuit.component?] using hcontains
    set x := (Component.source (constantKind on) ⟨50, row⟩).withId (constantName on)
    have hadd : c.add x = (constantName on, c.place x) :=
      Circuit.add_eq_place (Role.constant on).name_ne_empty hnew
    have hformed : x.WellFormed := (Component.wellFormed_source _ _).withId _
    have hself := c.component?_place_self x
    have hstocked : Stocked names (c.place x) :=
      h.grow (r := .constant on) (h.wired.place hformed hnew) hnew (c.sameBut_place x)
        (Circuit.size_place hnew) hself (by simp) ⟨rfl, rfl⟩ (fun _ hv => hv) fun _ => .inl
    have hstands := hstocked.standsFor_const hself
    show Stocked names (c.add x).2 ∧ Grown c (c.add x).2 [.const on] ∧
      StandsFor (c.add x).2 (constantName on) (.const on)
    rw [hadd]
    exact ⟨hstocked, (Grown.refl c).add hnew (c.sameBut_place x) hself hstands (by simp) rfl,
      hstands⟩

/-- A circuit with the switches of the variables and nothing else. -/
structure Supplied (names : List String) (c : Circuit) : Prop extends Stocked names c where
  /-- There is nothing but switches. -/
  only : ∀ {a x}, c.component? a = some x → ∃ v ∈ names, a = inputName v

/-- A switch is added for a variable that has none. -/
theorem Supplied.addSwitch (h : Supplied names c) (hv : v ∉ names) (place : Nat) :
    Supplied (names ++ [v]) (c.add (inputSwitch v place)).2 := by
  have hnew : c.component? (inputName v) = none :=
    h.new_of_not_fits (r := .switch v) fun _ _ hfits => hv hfits.1
  set x := inputSwitch v place
  have hadd : c.add x = (inputName v, c.place x) :=
    Circuit.add_eq_place (Role.switch v).name_ne_empty hnew
  have hformed : x.WellFormed := ((Component.wellFormed_source _ _).withId _).withLabel v
  have hfits : (Role.switch v).Fits (names ++ [v]) (c.place x).components.size x.unplugged :=
    ⟨by simp, ⟨false, rfl⟩, rfl⟩
  rw [hadd]
  refine ⟨h.grow (r := .switch v) (h.wired.place hformed hnew) hnew (c.sameBut_place x)
    (Circuit.size_place hnew) (c.component?_place_self x) (by simp) hfits
    (List.subset_append_left _ _) fun w hw => ?_, fun {a y} hy => ?_⟩
  · rcases List.mem_append.1 hw with hw | hw
    · exact .inl hw
    · exact .inr (by rw [List.mem_singleton.1 hw])
  · by_cases ha : a = inputName v
    · exact ⟨v, by simp, ha⟩
    · obtain ⟨w, hw, hname⟩ := h.only (((c.sameBut_place x).component ha).symm.trans hy)
      exact ⟨w, List.mem_append_left _ hw, hname⟩

/-- Each variable gets its switch. -/
theorem supplied_switches (hnames : names.Nodup) : Supplied names (switches names) := by
  have hfold : ∀ (vs : List (String × Nat)) (done : List String) (c : Circuit), Supplied done c →
      (done ++ vs.map (·.1)).Nodup → Supplied (done ++ vs.map (·.1))
        (vs.foldl (fun c v => (c.add (inputSwitch v.1 v.2)).2) c) := by
    intro vs
    induction vs with
    | nil =>
        intro done c h _
        simpa using h
    | cons v vs ih =>
        intro done c h hnodup
        rw [List.map_cons, List.append_cons] at hnodup ⊢
        have hv : v.1 ∉ done := fun hmem =>
          (List.nodup_append.1 (List.nodup_append.1 hnodup).1).2.2 _ hmem _ (by simp) rfl
        exact ih _ _ (h.addSwitch hv v.2) hnodup
  have hempty : Supplied [] .empty := ⟨⟨.empty, (nomatch ·), (nomatch ·)⟩, (nomatch ·)⟩
  have hall := hfold names.zipIdx [] .empty hempty (by simpa using hnames)
  rw [List.nil_append, List.zipIdx_map_fst] at hall
  exact hall

/-- There are no gates yet. -/
theorem Supplied.gateFunctions_eq (h : Supplied names c) : c.gateFunctions = [] := by
  have hgates : c.gates = [] := by
    refine List.filter_eq_nil_iff.2 fun x hx hgate => ?_
    have hlook : c.component? x.id = some x := Roster.mem_entries_iff.1 hx
    obtain ⟨v, _, hid⟩ := h.only hlook
    rw [hid] at hlook
    obtain ⟨-, -, ⟨level, hk⟩, -⟩ := h.fits (r := .switch v) hlook
    simp [hk, Kind.isGate] at hgate
  rw [Circuit.gateFunctions, hgates]
  rfl

/-! ## Expressions -/

/-- An expression over the variables is built: the last component stands for it and is new unless
it may be shared, and nothing was made but what the expression needs. -/
theorem Stocked.exists_build {e : Expr} (h : Stocked names c)
    (hnames : ∀ v ∈ e.occurrences, v ∈ names) (row : Float) :
    ∃ id level d, build e row c = .ok (id, level, d) ∧ Stocked names d ∧ Grown c d [e] ∧
      StandsFor d id e ∧ (e.isLeaf ∨ c.component? id = none) := by
  induction e generalizing c row with
  | var v =>
      exact ⟨_, _, c, rfl, h, (Grown.refl c).cover (by simp) rfl,
        h.standsFor_var (hnames v (List.mem_singleton_self v)), .inl rfl⟩
  | const on =>
      obtain ⟨hd, hcd, hstands⟩ := h.addConstant on row
      exact ⟨_, _, _, rfl, hd, hcd, hstands, .inl rfl⟩
  | not e ih =>
      obtain ⟨a, level, c₁, ha, h₁, hc₁, hstands, -⟩ := ih h hnames row
      obtain ⟨y, hy⟩ := hstands.exists_component
      obtain ⟨id, x, d, hgate, hd, hnew, hsame, hx, hk, hdrivers⟩ :=
        h₁.exists_addGate .not ⟨column (level + 1), (positionOf c₁ a).y⟩ [a] rfl (by simp [hy])
      have hroot : StandsFor d id (.not e) :=
        .not hx hk hdrivers (hstands.mono (hsame.extends hnew))
      refine ⟨id, level + 1, d, ?_, hd, hc₁.add hnew hsame hx hroot ?_ ?_, hroot,
        .inr (hc₁.extension.new hnew)⟩
      · simp only [build, ha, hgate, bind, Except.bind, pure, Except.pure]
      · simpa using Expr.Subterm.self.not
      · simp [hk, Kind.gate?, Expr.gates]
  | binary op e f ihe ihf =>
      obtain ⟨a, levelA, c₁, ha, h₁, hc₁, hstandsA, -⟩ :=
        ihe h (fun v hv => hnames v (List.mem_append_left _ hv)) (row - rowSpacing)
      obtain ⟨b, levelB, c₂, hb, h₂, hc₂, hstandsB, hfresh⟩ :=
        ihf h₁ (fun v hv => hnames v (List.mem_append_right _ hv)) (row + rowSpacing)
      -- the first operand was there before the second was built, and is still there afterwards
      have hshared : a = b → f.isLeaf := by
        rintro rfl
        obtain ⟨y, hy⟩ := hstandsA.exists_component
        exact hfresh.resolve_right (by simp [hy])
      have hstandsA := hstandsA.mono hc₂.extension
      obtain ⟨y, hy⟩ := hstandsA.exists_component
      obtain ⟨z, hz⟩ := hstandsB.exists_component
      obtain ⟨id, x, d, hgate, hd, hnew, hsame, hx, hk, hdrivers⟩ :=
        h₂.exists_addGate op.gate
          ⟨column (max levelA levelB + 1), ((positionOf c₂ a).y + (positionOf c₂ b).y) / 2⟩
          [a, b] op.arity_gate.symm (by simp [hy, hz])
      have hextends := hsame.extends hnew
      have hroot : StandsFor d id (.binary op e f) :=
        .binary hx hk hdrivers (hstandsA.mono hextends) (hstandsB.mono hextends) hshared
      refine ⟨id, max levelA levelB + 1, d, ?_, hd,
        (hc₁.trans hc₂).add hnew hsame hx hroot ?_ ?_, hroot,
        .inr ((hc₁.trans hc₂).extension.new hnew)⟩
      · simp only [build, ha, hb, hgate, bind, Except.bind, pure, Except.pure]
      · simpa using ⟨Expr.Subterm.self.left, Expr.Subterm.self.right⟩
      · simp [hk, Kind.gate?, Expr.gates]

/-- A circuit whose bulb shows what the root computes, and in which every component has its role
for the expression. -/
structure Realizes (e : Expr) (root : ComponentId) (c : Circuit) : Prop where
  /-- The circuit is well wired. -/
  wired : c.WellWired
  /-- There is nothing but switches, constants, gates and the bulb. -/
  parts : ∀ {id x}, c.component? id = some x →
    ∃ r : Role, id = r.name ∧ r.Fits e.variableNames c.components.size x
  /-- Each variable has its switch. -/
  switches : ∀ {v}, v ∈ e.variableNames → ∃ x, c.component? (inputName v) = some x
  /-- The expression is read off the root. -/
  reads : c.ReadsAs root e.spelled
  /-- There is a bulb. -/
  bulb : ∃ x, c.component? outputName = some x
  /-- The root drives it. -/
  driven : c.driversOf outputName = [some root]

/-- What has the name of a role is in that role. -/
theorem Realizes.fits {e : Expr} {root : ComponentId} (h : Realizes e root c)
    (hx : c.component? r.name = some x) : r.Fits e.variableNames c.components.size x := by
  obtain ⟨s, hname, hfits⟩ := h.parts hx
  obtain rfl := Role.name_injective hname
  exact hfits

/-- The bulb is the only sink. -/
theorem Realizes.exists_sinks_eq {e : Expr} {root : ComponentId} (h : Realizes e root c) :
    ∃ x, c.sinks = [x] ∧ c.component? outputName = some x ∧ x.kind = .sink (.ofKind .bulb) := by
  obtain ⟨x, hx⟩ := h.bulb
  have hk : x.kind = .sink (.ofKind .bulb) := h.fits (r := .output) hx
  have hid : x.id = outputName := Roster.name_of_get? hx
  have hmem : ∀ y, y ∈ c.sinks ↔ y ∈ [x] := by
    intro y
    rw [List.mem_singleton]
    constructor
    · intro hy
      obtain ⟨hlook, hsink⟩ := Circuit.mem_sinks_iff.1 hy
      obtain ⟨r, hname, hfits⟩ := h.parts hlook
      by_cases hr : r = .output
      · subst hr
        rw [hname] at hlook
        exact Option.some.inj (hlook.symm.trans hx)
      · exact absurd hsink (hfits.not_isSink hr)
    · rintro rfl
      exact Circuit.mem_sinks_iff.2 ⟨hid ▸ hx, by rw [hk]; rfl⟩
  have hnodup : c.sinks.Nodup := (Circuit.nodup_ids c).of_map.filter _
  have hperm := (List.perm_ext_iff_of_nodup hnodup (List.nodup_singleton x)).2 hmem
  exact ⟨x, List.perm_singleton.1 hperm, hx, hk⟩

/-- A circuit that realizes an expression and has nothing else in it: every component but the bulb
stands for a subterm, and the gates are those of the operators. -/
structure Shaped (e : Expr) (root : ComponentId) (c : Circuit) : Prop
    extends Realizes e root c where
  /-- The root stands for the expression. -/
  stands : StandsFor c root e
  /-- Every component but the bulb stands for a subterm. -/
  origin : ∀ {a x}, c.component? a = some x →
    a = outputName ∨ ∃ f, Expr.Subterm f e ∧ StandsFor c a f
  /-- There is a gate for each operator. -/
  gates : c.gateFunctions.Perm e.gates

/-- Every expression is built without a refusal. -/
theorem exists_shaped (e : Expr) : ∃ c root, Circuit.ofExpr e = .ok c ∧ Shaped e root c := by
  have hswitches := supplied_switches e.nodup_variableNames
  obtain ⟨root, level, d, hbuild, hd, hgrown, hroot, -⟩ :=
    hswitches.exists_build (fun v => Expr.mem_variableNames_iff.2) rootRow
  have hnew := hd.output_new
  obtain ⟨y, hy, hout⟩ := hroot.readsAs.exists_component
  have hne : root ≠ outputName := by
    rintro rfl
    rw [hnew] at hy
    cases hy
  set x := ((Component.sink .bulb ((positionOf d root).shifted columnSpacing 0)).withId
    outputName).withLabel "Output" with hx
  have hformed : x.WellFormed := ((Component.wellFormed_sink _ _).withId _).withLabel _
  have hadd : d.add x = (outputName, d.place x) :=
    Circuit.add_eq_place Role.output.name_ne_empty hnew
  have hplaced := d.sameBut_place x
  have hready : Filled (d.place x) outputName (.sink (.ofKind .bulb)) [] 1 :=
    filled_place hd.wired hformed hnew
  obtain ⟨k, c, hconnect, hwired, hsame, hsize, ⟨z, hz, hkind⟩, hdrivers, _⟩ :=
    hready.connect (hd.wired.place hformed hnew) hne ((hplaced.component hne).trans hy) hout
  have hdc : d.SameBut outputName c := hplaced.trans hsame
  have hcd := hdc.extends hnew
  have hcount : c.components.size = d.components.size + 1 := hsize.trans (Circuit.size_place hnew)
  refine ⟨c, root, ?_, ⟨hwired, fun {id u} hu => ?_, fun hv => ?_, (hroot.mono hcd).readsAs,
    ⟨z, hz⟩, hdrivers⟩, hroot.mono hcd, fun {a u} hu => ?_, ?_⟩
  · have hfirst : (d.place x).connect root outputName 0 = .ok (k, c) := hconnect
    simp only [Circuit.ofExpr, hbuild, ← hx, hadd, hfirst, bind, Except.bind, pure, Except.pure]
  · by_cases hid : id = outputName
    · subst hid
      obtain rfl := Option.some.inj (hz.symm.trans hu)
      exact ⟨.output, rfl, hkind⟩
    · obtain ⟨r, _, hname, hfits⟩ := hd.parts ((hdc.component hid).symm.trans hu)
      exact ⟨r, hname, hfits.mono (fun _ hv => hv) (by omega)⟩
  · obtain ⟨u, hu⟩ := hd.switches hv
    exact ⟨u, hcd.component hu⟩
  · by_cases ha : a = outputName
    · exact .inl ha
    · right
      rcases hgrown.origin ((hdc.component ha).symm.trans hu) with
        hold | ⟨e', he', f, hf, hstands⟩
      · obtain ⟨v, hv, rfl⟩ := hswitches.only hold
        exact ⟨.var v, Expr.subterm_var_iff.2 (Expr.mem_variableNames_iff.1 hv),
          (hd.standsFor_var hv).mono hcd⟩
      · obtain rfl := List.mem_singleton.1 he'
        exact ⟨f, hf, hstands.mono hcd⟩
  · have hbulb := hdc.perm_gateFunctions hnew hz
    rw [hkind] at hbulb
    refine hbulb.trans (hgrown.gates.trans (.of_eq ?_))
    simp [hswitches.gateFunctions_eq]

theorem exists_ofExpr (e : Expr) : ∃ c root, Circuit.ofExpr e = .ok c ∧ Realizes e root c := by
  obtain ⟨c, root, hbuilt, hc⟩ := exists_shaped e
  exact ⟨c, root, hbuilt, hc.toRealizes⟩

end Synthesis

end LogicCircuit
