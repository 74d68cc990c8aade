import LogicCircuit.Proofs.Expr.RoundTrip

/-!
# The grammar of expressions

`Spells` is the grammar: which tokens are a phrase of which sort, and the tree that they spell. A
chain is an operand followed by any number of operators of one strength with their right operands,
and it is folded to the left. The main result `accepts_exactly_grammar` says that the parser reads
exactly these trees.

The parser never goes back, so each direction has an invariant of its own. What has been read is
the start of a phrase (`ParseState.Consumed`, kept by each step). What a derivation reads leads
from an expected operand to a complete factor that holds the tree (`ParseState.Takes`); there the
operators of a chain are met one by one, each with the tree so far on its left.
-/

namespace LogicCircuit

/-- How much a binary operator binds, the least first. -/
inductive Strength where
  | or
  | xor
  | and
  deriving DecidableEq, Repr

/-- The strength of an operator. -/
def BinaryOp.strength : BinaryOp → Strength
  | or | nor => .or
  | xor => .xor
  | and | nand => .and

/-- The sorts of phrases. -/
inductive Phrase where
  /-- Operands with operators of one strength between them. -/
  | chain (s : Strength)
  /-- A primary with any number of negations in front of it. -/
  | negation
  /-- A variable, a constant or a chain in parentheses. -/
  | primary
  deriving DecidableEq, Repr

/-- What stands on both sides of operators of some strength. -/
def Strength.operand : Strength → Phrase
  | or => .chain .xor
  | xor => .chain .and
  | and => .negation

/-- An operator with the tokens of its right operand and the tree that they spell. -/
structure Link where
  /-- The operator. -/
  op : BinaryOp
  /-- The tokens of the operand. -/
  tokens : List Token
  /-- The tree of the operand. -/
  operand : Expr

namespace Link

/-- The tokens of a link. -/
def written (l : Link) : List Token := .operator l.op :: l.tokens

/-- The tree that a link makes of the tree on its left. -/
def attach (a : Expr) (l : Link) : Expr := .binary l.op a l.operand

end Link

/-- Tokens are a phrase of some sort and spell an expression. -/
inductive Spells : Phrase → List Token → Expr → Prop where
  | var (name : String) : Spells .primary [.var name] (.var name)
  | const (on : Bool) : Spells .primary [.const on] (.const on)
  | group {ts : List Token} {e : Expr} :
      Spells (.chain .or) ts e → Spells .primary (.opening :: (ts ++ [.closing])) e
  | primary {ts : List Token} {e : Expr} : Spells .primary ts e → Spells .negation ts e
  | not {ts : List Token} {e : Expr} :
      Spells .negation ts e → Spells .negation (.not :: ts) (.not e)
  | chain {s : Strength} {ts : List Token} {a : Expr} {links : List Link} :
      Spells s.operand ts a → (∀ l ∈ links, l.op.strength = s) →
        (∀ l ∈ links, Spells s.operand l.tokens l.operand) →
          Spells (.chain s) (ts ++ links.flatMap Link.written) (links.foldl Link.attach a)

variable {s : Strength} {f g : Frame} {outer : List Frame} {state state' : ParseState} {t : Token}
  {ts us : List Token} {a b e x : Expr} {op : BinaryOp} {left : Option (Expr × BinaryOp)}

namespace Spells

/-- An operand is a chain without links. -/
theorem single (h : Spells s.operand ts a) : Spells (.chain s) ts a := by
  have hchain : Spells (.chain s) (ts ++ [].flatMap Link.written) ([].foldl Link.attach a) :=
    h.chain (by simp) (by simp)
  rwa [List.flatMap_nil, List.append_nil] at hchain

/-- A chain goes on with one more link. -/
theorem more (ha : Spells (.chain op.strength) ts a) (hb : Spells op.strength.operand us b) :
    Spells (.chain op.strength) (ts ++ .operator op :: us) (.binary op a b) := by
  generalize hs : op.strength = s at ha hb
  cases ha with
  | @chain _ ts a links ha hops hlinks =>
      have hops' : ∀ l ∈ links ++ [⟨op, us, b⟩], l.op.strength = s := by
        simpa [or_imp, forall_and] using ⟨hops, hs⟩
      have hlinks' : ∀ l ∈ links ++ [⟨op, us, b⟩], Spells s.operand l.tokens l.operand := by
        simpa [or_imp, forall_and] using ⟨hlinks, hb⟩
      simpa [Link.written, Link.attach] using ha.chain hops' hlinks'

/-- Negations in front of a primary. -/
theorem negate (n : Nat) (h : Spells .negation ts e) :
    Spells .negation (List.replicate n .not ++ ts) (Frame.negate n e) := by
  induction n with
  | zero => exact h
  | succ n ih => exact ih.not

end Spells

/-! ## What has been read -/

/-- Tokens were read as a left side of some strength that waits, or as nothing. -/
inductive Waits : Strength → Option (Expr × BinaryOp) → List Token → Prop where
  | nothing (s : Strength) : Waits s none []
  | left (op : BinaryOp) {ts : List Token} {a : Expr} :
      Spells (.chain op.strength) ts a → Waits op.strength (some (a, op)) (ts ++ [.operator op])

/-- An operand completes the chain that waits for it. -/
theorem Waits.join (h : Waits s left ts) (hb : Spells s.operand us b) :
    Spells (.chain s) (ts ++ us) (Frame.join left b) := by
  cases h with
  | nothing => exact hb.single
  | left op ha =>
      rw [List.append_assoc]
      exact ha.more hb

namespace Frame

/-- Tokens were read as what waits in a frame for the next operand. -/
inductive Reads (f : Frame) : List Token → Prop where
  | intro {us vs ws : List Token} : Waits .or f.orLeft us →
      Waits .xor (f.xorLeft.map (·, .xor)) vs → Waits .and f.andLeft ws →
        Reads f (us ++ (vs ++ (ws ++ List.replicate f.nots .not)))

/-- Tokens were read as what waits in a frame and a complete factor behind it. -/
inductive ReadsFactor (f : Frame) (e : Expr) : List Token → Prop where
  | intro {us vs ws : List Token} : Waits .or f.orLeft us →
      Waits .xor (f.xorLeft.map (·, .xor)) vs → Spells (.chain .and) ws e →
        ReadsFactor f e (us ++ (vs ++ ws))

theorem reads_fresh : fresh.Reads [] :=
  .intro (f := fresh) (.nothing .or) (.nothing .xor) (.nothing .and)

/-- One more negation waits. -/
theorem Reads.not (h : f.Reads ts) : Reads { f with nots := f.nots + 1 } (ts ++ [.not]) := by
  obtain ⟨hor, hxor, hand⟩ := h
  have hread := Reads.intro (f := { f with nots := f.nots + 1 }) hor hxor hand
  rw [List.replicate_succ'] at hread
  simpa only [List.append_assoc] using hread

/-- A primary completes a factor. -/
theorem Reads.factor (h : f.Reads ts) (he : Spells .primary us e) :
    f.ReadsFactor (f.factor e) (ts ++ us) := by
  obtain ⟨hor, hxor, hand⟩ := h
  have hfactor := hand.join (s := .and) (he.primary.negate f.nots)
  rw [← factor] at hfactor
  simpa only [List.append_assoc] using ReadsFactor.intro hor hxor hfactor

/-- A complete factor completes the whole. -/
theorem ReadsFactor.whole (h : f.ReadsFactor e ts) : Spells (.chain .or) ts (f.whole e) := by
  obtain ⟨hor, hxor, he⟩ := h
  exact hor.join (s := .or) (hxor.join (s := .xor) he)

/-- An operator behind a complete factor waits with all that binds at least as much as it does. -/
theorem ReadsFactor.push (h : f.ReadsFactor e ts) (op : BinaryOp) :
    (f.push e op).Reads (ts ++ [.operator op]) := by
  have hwhole := h.whole
  obtain ⟨hor, hxor, he⟩ := h
  have hsummand := hxor.join (s := .xor) he
  cases op with
  | or =>
      have hread := Reads.intro (f := f.push e .or) (.left .or hwhole) (.nothing .xor)
        (.nothing .and)
      simpa [Frame.push] using hread
  | nor =>
      have hread := Reads.intro (f := f.push e .nor) (.left .nor hwhole) (.nothing .xor)
        (.nothing .and)
      simpa [Frame.push] using hread
  | xor =>
      have hread := Reads.intro (f := f.push e .xor) hor (.left .xor hsummand)
        (.nothing .and)
      simpa [Frame.push] using hread
  | and =>
      have hread := Reads.intro (f := f.push e .and) hor hxor (.left .and he)
      simpa [Frame.push] using hread
  | nand =>
      have hread := Reads.intro (f := f.push e .nand) hor hxor (.left .nand he)
      simpa [Frame.push] using hread

/-- Tokens were read up to the innermost of the parentheses that are open. -/
inductive Enclose : List Frame → List Token → Prop where
  | nil : Enclose [] []
  | cons {f : Frame} {outer : List Frame} {ts us : List Token} :
      Enclose outer ts → f.Reads us → Enclose (f :: outer) (ts ++ (us ++ [.opening]))

end Frame

namespace ParseState

/-- Tokens lead to a state. -/
inductive Consumed : ParseState → List Token → Prop where
  | expecting {f : Frame} {outer : List Frame} {ts us : List Token} :
      Frame.Enclose outer ts → f.Reads us → Consumed (.expecting f outer) (ts ++ us)
  | complete {f : Frame} {e : Expr} {outer : List Frame} {ts us : List Token} :
      Frame.Enclose outer ts → f.ReadsFactor e us → Consumed (.complete f e outer) (ts ++ us)

/-- A step adds its token to what has been read. -/
theorem Consumed.step (h : state.Consumed ts) (hstep : state.step t = .ok state') :
    state'.Consumed (ts ++ [t]) := by
  cases h with
  | @expecting f outer ts us houter hread =>
      rw [List.append_assoc]
      cases t with
      | var name =>
          obtain rfl := Except.ok.inj hstep
          exact .complete houter (hread.factor (.var name))
      | const on =>
          obtain rfl := Except.ok.inj hstep
          exact .complete houter (hread.factor (.const on))
      | not =>
          obtain rfl := Except.ok.inj hstep
          exact .expecting houter hread.not
      | opening =>
          obtain rfl := Except.ok.inj hstep
          have hopen := Consumed.expecting (houter.cons hread) Frame.reads_fresh
          rwa [List.append_nil] at hopen
      | operator op => cases hstep
      | closing => cases hstep
  | @complete f e outer ts us houter hread =>
      rw [List.append_assoc]
      cases t with
      | operator op =>
          obtain rfl := Except.ok.inj hstep
          exact .expecting houter (hread.push op)
      | closing =>
          cases houter with
          | nil => cases hstep
          | @cons g outer ts vs houter hopen =>
              obtain rfl := Except.ok.inj hstep
              have hclosed := Consumed.complete houter (hopen.factor hread.whole.group)
              simpa only [List.append_assoc, List.cons_append, List.nil_append] using hclosed
      | var | const | not | opening => cases outer <;> cases hstep

/-- What a run accepts is a phrase, together with what was read before. -/
theorem Consumed.run (h : state.Consumed ts) (hrun : state.run us = .ok e) :
    Spells (.chain .or) (ts ++ us) e := by
  induction us generalizing state ts with
  | nil =>
      rw [List.append_nil]
      cases h with
      | expecting houter hread => cases hrun
      | complete houter hread =>
          cases houter with
          | nil =>
              obtain rfl := Except.ok.inj hrun
              exact hread.whole
          | cons houter hopen => cases hrun
  | cons t us ih =>
      cases hstep : state.step t with
      | error reason => simp [ParseState.run, hstep] at hrun
      | ok state' =>
          rw [run_cons hstep] at hrun
          have hrest := ih (h.step hstep) hrun
          rwa [List.append_assoc] at hrest

end ParseState

/-! ## What is accepted -/

namespace Frame

/-- The frame with a left side of some strength that waits: weaker ones stay as they are, and
nothing that binds more waits. -/
def awaiting (f : Frame) (left : Option (Expr × BinaryOp)) : Strength → Frame
  | .or => ⟨left, none, none, 0⟩
  | .xor => ⟨f.orLeft, left.map (·.1), none, 0⟩
  | .and => ⟨f.orLeft, f.xorLeft, left, 0⟩

/-- With the complete factor `x`, the frame `g` holds an expression of some strength, and what is
weaker waits in it as it does in `f`. -/
def Holds (f g : Frame) (x e : Expr) : Strength → Prop
  | .or => g.whole x = e
  | .xor => g.orLeft = f.orLeft ∧ g.summand x = e
  | .and => g.orLeft = f.orLeft ∧ g.xorLeft = f.xorLeft ∧ x = e

/-- An operator takes what the frame holds at its strength as its left side. -/
theorem Holds.push (h : f.Holds g x a op.strength) :
    g.push x op = f.awaiting (some (a, op)) op.strength := by
  cases op with
  | or | nor =>
      obtain rfl : g.whole x = a := h
      rfl
  | xor =>
      obtain ⟨hor, rfl⟩ : g.orLeft = f.orLeft ∧ g.summand x = a := h
      exact congrArg (Frame.mk · (some (g.summand x)) none 0) hor
  | and | nand =>
      obtain ⟨hor, hxor, rfl⟩ : g.orLeft = f.orLeft ∧ g.xorLeft = f.xorLeft ∧ x = a := h
      simp only [Frame.push, awaiting, hor, hxor, BinaryOp.strength]

end Frame

namespace ParseState

/-- From an expected operand, the tokens of a phrase lead to a complete factor that holds its
tree, whatever follows them. -/
def Takes (ts : List Token) (e : Expr) : Phrase → Prop
  | .chain s => ∀ f : Frame, ∃ g x, f.Holds g x e s ∧ ∀ outer us,
      (expecting (f.awaiting none s) outer).run (ts ++ us) = (complete g x outer).run us
  | .negation | .primary => ∀ (f : Frame) outer us,
      (expecting f outer).run (ts ++ us) = (complete f (f.factor e) outer).run us

/-- An operand is joined to the left side that waits for it. -/
theorem Takes.operand (h : Takes ts b s.operand) (f : Frame) (left : Option (Expr × BinaryOp))
    (hleft : ∀ p ∈ left, p.2.strength = s) : ∃ g x, f.Holds g x (Frame.join left b) s ∧
      ∀ outer us,
        (expecting (f.awaiting left s) outer).run (ts ++ us) = (complete g x outer).run us := by
  cases s with
  | or =>
      obtain ⟨g, x, ⟨hor, hb⟩, hrun⟩ := h (f.awaiting left .or)
      refine ⟨g, x, ?_, hrun⟩
      rw [Frame.Holds, Frame.whole, hor, hb]
      rfl
  | xor =>
      obtain ⟨g, x, ⟨hor, hxor, rfl⟩, hrun⟩ := h (f.awaiting left .xor)
      refine ⟨g, x, ⟨hor, ?_⟩, hrun⟩
      -- the frame keeps only the left side, because there is one operator of this strength
      have hkept : (left.map (·.1)).map (·, BinaryOp.xor) = left := by
        cases left with
        | none => rfl
        | some p =>
            obtain ⟨a, op⟩ := p
            have hop : op.strength = .xor := hleft _ rfl
            cases op with
            | xor => rfl
            | and | or | nand | nor => cases hop
      rw [Frame.summand, hxor]
      exact congrArg (Frame.join · x) hkept
  | and =>
      have hrun := h (f.awaiting left .and)
      exact ⟨f.awaiting left .and, Frame.join left b, ⟨rfl, rfl, rfl⟩, hrun⟩

/-- The links of a chain are joined one by one to what the frame holds. -/
theorem takes_links {links : List Link} (h : f.Holds g x a s)
    (hops : ∀ l ∈ links, l.op.strength = s)
    (hlinks : ∀ l ∈ links, Takes l.tokens l.operand s.operand) :
    ∃ g' x', f.Holds g' x' (links.foldl Link.attach a) s ∧ ∀ outer us,
      (complete g x outer).run (links.flatMap Link.written ++ us) =
        (complete g' x' outer).run us := by
  induction links generalizing g x a with
  | nil => exact ⟨g, x, h, fun _ _ => rfl⟩
  | cons l links ih =>
      obtain ⟨hop, hops⟩ := List.forall_mem_cons.1 hops
      obtain ⟨hl, hlinks⟩ := List.forall_mem_cons.1 hlinks
      obtain ⟨g₁, x₁, h₁, hrun₁⟩ := hl.operand f (some (a, l.op)) (by simpa using hop)
      obtain ⟨g', x', h', hrun'⟩ := ih h₁ hops hlinks
      subst hop
      refine ⟨g', x', h', fun outer us => ?_⟩
      calc (complete g x outer).run ((l :: links).flatMap Link.written ++ us)
          = (expecting (g.push x l.op) outer).run
              (l.tokens ++ (links.flatMap Link.written ++ us)) := by
            rw [List.flatMap_cons, List.append_assoc]
            exact run_cons rfl
        _ = (complete g₁ x₁ outer).run (links.flatMap Link.written ++ us) := by
            rw [h.push]
            exact hrun₁ ..
        _ = (complete g' x' outer).run us := hrun' ..

/-- The parser takes every phrase for the tree that it spells. -/
theorem takes_of_spells {p : Phrase} (h : Spells p ts e) : Takes ts e p := by
  induction h with
  | var name => exact fun f outer us => run_cons rfl
  | const on => exact fun f outer us => run_cons rfl
  | @group ts e _ ih =>
      intro f outer us
      obtain ⟨g, x, hwhole, hrun⟩ := ih .fresh
      calc (expecting f outer).run (.opening :: (ts ++ [.closing]) ++ us)
          = (expecting .fresh (f :: outer)).run (ts ++ .closing :: us) := by
            rw [List.cons_append, List.append_assoc]
            exact run_cons rfl
        _ = (complete g x (f :: outer)).run (.closing :: us) := hrun ..
        _ = (complete f (f.factor (g.whole x)) outer).run us := run_cons rfl
        _ = (complete f (f.factor e) outer).run us := by rw [hwhole]
  | primary _ ih => exact ih
  | @not ts e _ ih =>
      intro f outer us
      have hnot : (expecting f outer).run (.not :: ts ++ us) =
          (expecting { f with nots := f.nots + 1 } outer).run (ts ++ us) := run_cons rfl
      rw [hnot, ih, Frame.factor_succ_nots, run_complete_nots]
  | chain _ hops _ ih ihs =>
      intro f
      obtain ⟨g, x, hfirst, hrun⟩ := ih.operand f none (by simp)
      obtain ⟨g', x', hall, hrun'⟩ := takes_links hfirst hops ihs
      refine ⟨g', x', hall, fun outer us => ?_⟩
      rw [List.append_assoc, hrun, hrun']

end ParseState

namespace Expr

/-- The parser reads a list of tokens as an expression exactly if they spell it as a chain of the
least strength. -/
theorem ofTokens_eq_ok_iff : ofTokens ts = .ok e ↔ Spells (.chain .or) ts e := by
  constructor
  · exact (ParseState.Consumed.expecting .nil Frame.reads_fresh).run
  · intro h
    obtain ⟨g, x, hwhole, hrun⟩ := ParseState.takes_of_spells h .fresh
    have hall := hrun [] []
    rw [List.append_nil] at hall
    exact hall.trans (congrArg Except.ok hwhole)

/-- The parser accepts exactly its grammar. It reads any list of tokens as an expression exactly
if the whole list spells it, no list spells two expressions, and a text is parsed as what its
tokens spell. -/
theorem accepts_exactly_grammar :
    (∀ ts e, ofTokens ts = .ok e ↔ Spells (.chain .or) ts e) ∧
    (∀ ts a b, Spells (.chain .or) ts a → Spells (.chain .or) ts b → a = b) ∧
    ∀ text e, parse text = .ok e ↔
      ∃ placed, Token.ofText text = .ok placed ∧
        Spells (.chain .or) (placed.map (·.token)) e := by
  refine ⟨fun ts e => ofTokens_eq_ok_iff, fun ts a b ha hb => ?_, fun text e => ?_⟩
  · exact Except.ok.inj ((ofTokens_eq_ok_iff.2 ha).symm.trans (ofTokens_eq_ok_iff.2 hb))
  · unfold parse
    cases Token.ofText text with
    | error stray => simp
    | ok placed => simp [ofTokens_eq_ok_iff]

/-- Operators of all strengths, a negation and parentheses spell one tree, as tokens and as a
text. -/
theorem accepts_nested_chains :
    let b : Token := .var "B"
    let ts := [.var "A", .operator .nor, b, .operator .xor, .not, b, .operator .nand, .opening, b,
      .operator .or, .const true, .closing, .operator .and, b]
    let e := binary .nor (var "A") (binary .xor (var "B")
      (binary .and (binary .nand (not (var "B")) (binary .or (var "B") (const true))) (var "B")))
    Spells (.chain .or) ts e ∧ (∀ d, Spells (.chain .or) ts d → d = e) ∧
      ∃ placed, Token.ofText "A NOR b XOR !b ⊼ (B + 1) AND B" = .ok placed ∧
        Spells (.chain .or) (placed.map (·.token)) e := by
  intro b ts e
  obtain ⟨hlist, hunique, htext⟩ := accepts_exactly_grammar
  have hspells : Spells (.chain .or) ts e := (hlist ts e).1 (by decide)
  exact ⟨hspells, fun d hd => hunique ts d e hd hspells, (htext _ e).1 (by decide +kernel)⟩

end Expr

end LogicCircuit
