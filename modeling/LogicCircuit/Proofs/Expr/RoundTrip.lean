import LogicCircuit.Proofs.Expr.Scanning

/-!
# Printing and parsing

The parser reads the tokens of a printed expression as one operand, whatever waits for it and
whatever follows (`ParseState.run_tokens`). Parentheses stand around every binary operation, so
the strengths of the operators never matter there. No step of the parser adds, drops or moves a
variable (`ParseState.names_step`), so a parsed expression bears the names of its tokens, in their
order.
-/

namespace LogicCircuit

namespace Frame

variable {f : Frame} {e : Expr}

/-- Negations may be counted from either side. -/
theorem negate_not (n : Nat) (e : Expr) : negate n (.not e) = .not (negate n e) := by
  induction n with
  | zero => rfl
  | succ n ih => rw [negate, ih, negate]

/-- One more pending negation is a negation of the operand. -/
theorem factor_succ_nots (f : Frame) (e : Expr) :
    factor { f with nots := f.nots + 1 } e = f.factor (.not e) := by
  rw [factor, factor, negate_not, negate]

/-- Inside fresh parentheses an operator joins its two operands. -/
theorem whole_push_fresh (op : BinaryOp) (a b : Expr) :
    (fresh.push a op).whole ((fresh.push a op).factor b) = .binary op a b := by
  cases op <;> rfl

end Frame

namespace ParseState

variable {s s' : ParseState} {t : Token} {ts : List Token} {e : Expr}

theorem run_cons (h : s.step t = .ok s') : s.run (t :: ts) = s'.run ts := by
  rw [run, h]

/-- Behind a complete factor the negations in front of it do not matter. -/
theorem step_complete_nots (f : Frame) (n : Nat) (e : Expr) (outer : List Frame) (t : Token) :
    (complete { f with nots := n } e outer).step t = (complete f e outer).step t := by
  have hpush : ∀ op, Frame.push { f with nots := n } e op = f.push e op := by
    intro op
    cases op <;> rfl
  cases t with
  | operator op => simp only [step, hpush]
  | var | const | not | opening | closing => cases outer <;> rfl

theorem run_complete_nots (f : Frame) (n : Nat) (e : Expr) (outer : List Frame)
    (ts : List Token) :
    (complete { f with nots := n } e outer).run ts = (complete f e outer).run ts := by
  cases ts with
  | nil => cases outer <;> rfl
  | cons t ts => rw [run, run, step_complete_nots]

/-- The tokens of an expression are read as one operand. -/
theorem run_tokens (e : Expr) (f : Frame) (outer : List Frame) (ts : List Token) :
    (expecting f outer).run (e.tokens ++ ts) = (complete f (f.factor e) outer).run ts := by
  induction e generalizing f outer ts with
  | var name => exact run_cons rfl
  | const on => exact run_cons rfl
  | not e ih =>
      -- the negation waits in the frame, and behind its operand it no longer counts
      have hnot : (expecting f outer).run ((Expr.not e).tokens ++ ts) =
          (expecting { f with nots := f.nots + 1 } outer).run (e.tokens ++ ts) := run_cons rfl
      rw [hnot, ih, Frame.factor_succ_nots, run_complete_nots]
  | binary op a b iha ihb =>
      have htokens : (Expr.binary op a b).tokens ++ ts =
          .opening :: (a.tokens ++ .operator op :: (b.tokens ++ .closing :: ts)) := by
        simp [Expr.tokens]
      let g := Frame.fresh.push a op
      calc (expecting f outer).run ((Expr.binary op a b).tokens ++ ts)
          = (expecting .fresh (f :: outer)).run
              (a.tokens ++ .operator op :: (b.tokens ++ .closing :: ts)) := by
            rw [htokens]
            exact run_cons rfl
        _ = (complete .fresh a (f :: outer)).run (.operator op :: (b.tokens ++ .closing :: ts)) :=
            iha ..
        _ = (expecting g (f :: outer)).run (b.tokens ++ .closing :: ts) := run_cons rfl
        _ = (complete g (g.factor b) (f :: outer)).run (.closing :: ts) := ihb ..
        _ = (complete f (f.factor (g.whole (g.factor b))) outer).run ts := run_cons rfl
        _ = (complete f (f.factor (.binary op a b)) outer).run ts := by
            rw [Frame.whole_push_fresh]

end ParseState

/-- The tokens of the printed form spell the expression. -/
theorem Expr.ofTokens_tokens (e : Expr) : ofTokens e.tokens = .ok e := by
  have hrun := ParseState.run_tokens e .fresh [] []
  rw [List.append_nil] at hrun
  exact hrun

/-- A text that is scanned to its end as some tokens is parsed as they are. -/
theorem Expr.parse_of_scans {text : String} {ts : List Token}
    (h : Token.Scans text.toList ts []) : parse text = ofTokens ts := by
  obtain ⟨placed, hplaced, hscan⟩ := h 0
  have htext : Token.ofText text = .ok placed := by
    rw [Token.ofText, ← List.append_nil text.toList, hscan, Token.scan]
    exact congrArg Except.ok (List.append_nil placed)
  rw [parse, htext]
  exact congrArg ofTokens hplaced

/-- The printed form of an expression is read back, if its names can be written. -/
theorem Expr.parse_text {e : Expr} (he : e.WellNamed) : parse e.text = .ok e :=
  (parse_of_scans (e.scans_text he (by simp))).trans e.ofTokens_tokens

/-! ## The names in a parsed expression -/

/-- The variable that a token is. -/
def Token.names : Token → List String
  | var name => [name]
  | _ => []

namespace Frame

/-- The names in a left side that waits for its right side. -/
def leftNames (left : Option (Expr × BinaryOp)) : List String :=
  (left.map (·.1.occurrences)).getD []

/-- The names to the left of a complete factor, in the order in which they were read. -/
def namesBefore (f : Frame) : List String :=
  leftNames f.orLeft ++ leftNames (f.xorLeft.map (·, .xor))

/-- The names to the left of the next operand, in the order in which they were read. -/
def names (f : Frame) : List String := f.namesBefore ++ leftNames f.andLeft

theorem occurrences_negate (n : Nat) (e : Expr) : (negate n e).occurrences = e.occurrences := by
  induction n with
  | zero => rfl
  | succ n ih => exact ih

theorem occurrences_join (left : Option (Expr × BinaryOp)) (e : Expr) :
    (join left e).occurrences = leftNames left ++ e.occurrences := by
  cases left <;> rfl

theorem occurrences_factor (f : Frame) (e : Expr) :
    (f.factor e).occurrences = leftNames f.andLeft ++ e.occurrences := by
  rw [factor, occurrences_join, occurrences_negate]

theorem occurrences_summand (f : Frame) (e : Expr) :
    (f.summand e).occurrences = leftNames (f.xorLeft.map (·, .xor)) ++ e.occurrences :=
  occurrences_join _ e

theorem occurrences_whole (f : Frame) (e : Expr) :
    (f.whole e).occurrences = f.namesBefore ++ e.occurrences := by
  rw [whole, occurrences_join, occurrences_summand, namesBefore, List.append_assoc]

/-- An operator waits with all that was read before it. -/
theorem names_push (f : Frame) (e : Expr) (op : BinaryOp) :
    (f.push e op).names = f.namesBefore ++ e.occurrences := by
  cases op with
  | and | nand => rfl
  | xor => simp [push, names, namesBefore, leftNames, occurrences_summand]
  | or | nor => simp [push, names, namesBefore, leftNames, occurrences_whole]

end Frame

namespace ParseState

variable {s s' : ParseState} {t : Token} {ts : List Token} {e : Expr}

/-- The names in what has been read, in the order in which they were read. -/
def names : ParseState → List String
  | expecting f outer => outer.reverse.flatMap Frame.names ++ f.names
  | complete f e outer => outer.reverse.flatMap Frame.names ++ f.namesBefore ++ e.occurrences

/-- A step adds the variable that it reads, if any. -/
theorem names_step (h : s.step t = .ok s') : s'.names = s.names ++ t.names := by
  cases s with
  | expecting f outer =>
      cases t with
      | var name | const on =>
          obtain rfl := Except.ok.inj h
          simp [names, Token.names, Frame.occurrences_factor, Frame.names, Expr.occurrences]
      | not =>
          obtain rfl := Except.ok.inj h
          simp [names, Token.names, Frame.names, Frame.namesBefore]
      | opening =>
          obtain rfl := Except.ok.inj h
          simp [names, Token.names, Frame.names, Frame.namesBefore, Frame.fresh, Frame.leftNames]
      | operator op => cases h
      | closing => cases h
  | complete f e outer =>
      cases t with
      | operator op =>
          obtain rfl := Except.ok.inj h
          simp [names, Token.names, Frame.names_push]
      | closing =>
          cases outer with
          | nil => cases h
          | cons g outer =>
              obtain rfl := Except.ok.inj h
              simp [names, Token.names, Frame.names, Frame.occurrences_factor,
                Frame.occurrences_whole]
      | var | const | not | opening => cases outer <;> cases h

/-- The result has the names of the state and those of the tokens that remain. -/
theorem occurrences_run (h : s.run ts = .ok e) :
    e.occurrences = s.names ++ ts.flatMap Token.names := by
  induction ts generalizing s with
  | nil =>
      cases s with
      | expecting f outer => cases h
      | complete f d outer =>
          cases outer with
          | cons g outer => cases h
          | nil =>
              obtain rfl := Except.ok.inj h
              simp [names, Frame.occurrences_whole]
  | cons t ts ih =>
      cases hstep : s.step t with
      | error reason => simp [run, hstep] at h
      | ok s' =>
          rw [run_cons hstep] at h
          rw [ih h, names_step hstep, List.flatMap_cons, List.append_assoc]

end ParseState

namespace Expr

/-- The variables of a parsed expression are those of its tokens, in the same order. -/
theorem occurrences_ofTokens {ts : List Token} {e : Expr} (h : ofTokens ts = .ok e) :
    e.occurrences = ts.flatMap Token.names :=
  ParseState.occurrences_run h

/-- A parsed expression has names that can be written. -/
theorem wellNamed_of_parse {s : String} {e : Expr} (h : parse s = .ok e) : e.WellNamed := by
  unfold parse at h
  cases hscan : Token.ofText s with
  | error stray => simp [hscan] at h
  | ok placed =>
      simp only [hscan] at h
      intro name hname
      rw [occurrences_ofTokens h, List.mem_flatMap] at hname
      obtain ⟨t, ht, hname⟩ := hname
      obtain ⟨p, hp, rfl⟩ := List.mem_map.1 ht
      refine Token.isName_of_mem_scan hscan p hp name ?_
      cases htoken : p.token <;> simp_all [Token.names]

/-- An expression whose names can be written is printed as a text that is parsed as the same
expression; and every parsed expression has such names. -/
theorem printing_then_parsing :
    (∀ e : Expr, e.WellNamed → parse e.text = .ok e) ∧
      ∀ (s : String) (e : Expr), parse s = .ok e → e.WellNamed ∧ parse e.text = .ok e := by
  refine ⟨fun e he => parse_text he, fun s e hparse => ?_⟩
  have he : e.WellNamed := wellNamed_of_parse hparse
  exact ⟨he, parse_text he⟩

/-- Both directions on the negated disjunction of a negated variable and another one. -/
theorem printing_then_parsing_nor :
    let e : Expr := binary .nor (not (var "X1")) (var "B")
    (e.WellNamed ∧ parse e.text = .ok e) ∧
      parse "!x1 ⊽ b" = .ok e ∧ e.WellNamed ∧ parse e.text = .ok e := by
  intro e
  have he : e.WellNamed := by decide
  have hparse : parse "!x1 ⊽ b" = .ok e := by decide +kernel
  exact ⟨⟨he, printing_then_parsing.1 e he⟩, hparse, printing_then_parsing.2 _ e hparse⟩

end Expr

end LogicCircuit
