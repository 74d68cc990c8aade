import LogicCircuit.Proofs.Expr.Grammar

/-!
# Viable tokens

Tokens are viable if more tokens can make them an expression of the grammar. The parser goes on
exactly as long as they are: each state that it reaches can still be completed
(`ParseState.exists_run_eq_ok`), and a step that fails is lost whatever follows (`Reached.error`).
What the state says about the next token has a meaning in the grammar as well: an operand is
expected exactly where a variable can follow (`Reached.expectsOperand_iff`), and a parenthesis is
open behind a complete operand exactly where the tokens end in an opening parenthesis and an
expression (`Reached.inParenthesis_iff`). So a refusal names the first token with which no
expression can go on, and tells these cases apart: `refusal_blames_first_token`.
-/

namespace LogicCircuit

/-- Tokens are an expression of the grammar. -/
def IsExpression (ts : List Token) : Prop := ∃ e, Spells (.chain .or) ts e

/-- Tokens can be extended to an expression. -/
def Viable (ts : List Token) : Prop := ∃ us, IsExpression (ts ++ us)

/-- An operand is expected behind tokens: they can go on with a variable. -/
def ExpectsOperand (ts : List Token) : Prop := ∃ name, Viable (ts ++ [.var name])

/-- Tokens end in a complete operand behind an opening parenthesis. -/
def InParenthesis (ts : List Token) : Prop :=
  ∃ us vs, ts = us ++ .opening :: vs ∧ IsExpression vs

variable {s s' : ParseState} {t : Token} {ts us vs : List Token} {reason : ParseError}

theorem isExpression_iff_ofTokens : IsExpression ts ↔ ∃ e, Expr.ofTokens ts = .ok e :=
  exists_congr fun _ => Expr.ofTokens_eq_ok_iff.symm

/-- The start of viable tokens is viable. -/
theorem Viable.of_append (h : Viable (ts ++ us)) : Viable ts := by
  obtain ⟨vs, hvs⟩ := h
  exact ⟨us ++ vs, by rwa [← List.append_assoc]⟩

namespace ParseState

/-- A step fails in three ways: no token but an operand is expected, a parenthesis is open behind
a complete operand, or none is. -/
theorem step_error_cases (h : s.step t = .error reason) :
    (∃ f outer, s = expecting f outer ∧ reason = .unexpectedToken t) ∨
    (∃ f e g outer, s = complete f e (g :: outer) ∧ reason = .missingParen (some t)) ∨
    ∃ f e, s = complete f e [] ∧ reason = .trailingInput t := by
  cases s with
  | expecting f outer =>
      refine .inl ⟨f, outer, rfl, ?_⟩
      cases t <;> cases h <;> rfl
  | complete f e outer =>
      cases outer with
      | nil =>
          refine .inr (.inr ⟨f, e, rfl, ?_⟩)
          cases t <;> cases h <;> rfl
      | cons g outer =>
          refine .inr (.inl ⟨f, e, g, outer, rfl, ?_⟩)
          cases t <;> cases h <;> rfl

/-- Every state can be completed: by an operand if one is expected, and by closing what is open.
-/
theorem exists_run_eq_ok (s : ParseState) : ∃ us e, s.run us = .ok e := by
  have hcomplete : ∀ outer f e, ∃ us d, (complete f e outer).run us = .ok d := by
    intro outer
    induction outer with
    | nil => exact fun f e => ⟨[], f.whole e, rfl⟩
    | cons g outer ih =>
        intro f e
        obtain ⟨us, d, hrun⟩ := ih g (g.factor (f.whole e))
        exact ⟨.closing :: us, d, (run_cons rfl).trans hrun⟩
  cases s with
  | complete f e outer => exact hcomplete outer f e
  | expecting f outer =>
      obtain ⟨us, d, hrun⟩ := hcomplete outer f (f.factor (.const true))
      exact ⟨.const true :: us, d, (run_cons rfl).trans hrun⟩

/-- Tokens lead from the start to a state. -/
inductive Reached : List Token → ParseState → Prop where
  | start : Reached [] start
  | step {ts : List Token} {s s' : ParseState} {t : Token} :
      Reached ts s → s.step t = .ok s' → Reached (ts ++ [t]) s'

namespace Reached

/-- What follows is read from the state that is reached. -/
theorem ofTokens_append (h : Reached ts s) (us : List Token) :
    Expr.ofTokens (ts ++ us) = s.run us := by
  induction h generalizing us with
  | start => rfl
  | step _ hstep ih => rw [List.append_assoc, ih, List.singleton_append, run_cons hstep]

/-- At the end the state decides. -/
theorem ofTokens_eq (h : Reached ts s) : Expr.ofTokens ts = s.finish := by
  have hend := h.ofTokens_append []
  rwa [List.append_nil] at hend

/-- A step that fails is lost whatever follows. -/
theorem error (h : Reached ts s) (hstep : s.step t = .error reason) (us : List Token) :
    Expr.ofTokens (ts ++ t :: us) = .error reason := by
  rw [h.ofTokens_append, run, hstep]

/-- The tokens that lead to a state have been read there. -/
theorem consumed (h : Reached ts s) : s.Consumed ts := by
  induction h with
  | start => exact .expecting .nil Frame.reads_fresh
  | step _ hstep ih => exact ih.step hstep

theorem viable (h : Reached ts s) : Viable ts := by
  obtain ⟨us, e, hrun⟩ := s.exists_run_eq_ok
  exact ⟨us, isExpression_iff_ofTokens.2 ⟨e, (h.ofTokens_append us).trans hrun⟩⟩

/-- A step goes on exactly if the tokens stay viable with it. -/
theorem viable_append_iff (h : Reached ts s) : Viable (ts ++ [t]) ↔ ∃ s', s.step t = .ok s' := by
  constructor
  · rintro ⟨us, hus⟩
    obtain ⟨e, he⟩ := isExpression_iff_ofTokens.1 hus
    cases hstep : s.step t with
    | ok s' => exact ⟨s', rfl⟩
    | error reason =>
        rw [List.append_assoc, List.singleton_append, h.error hstep] at he
        cases he
  · rintro ⟨s', hstep⟩
    exact (h.step hstep).viable

end Reached

/-- Viable tokens lead to a state. -/
theorem exists_reached (h : Viable ts) : ∃ s, Reached ts s := by
  induction ts using List.reverseRecOn with
  | nil => exact ⟨start, .start⟩
  | append_singleton ts t ih =>
      obtain ⟨s, hs⟩ := ih h.of_append
      obtain ⟨s', hstep⟩ := hs.viable_append_iff.1 h
      exact ⟨s', hs.step hstep⟩

namespace Reached

/-- A state is a complete expression exactly where the tokens are. -/
theorem isExpression_iff (h : Reached ts s) : IsExpression ts ↔ ∃ f e, s = complete f e [] := by
  rw [isExpression_iff_ofTokens, h.ofTokens_eq]
  cases s with
  | expecting f outer => simp [finish]
  | complete f e outer => cases outer <;> simp [finish]

/-- A state expects an operand exactly where the grammar does. -/
theorem expectsOperand_iff (h : Reached ts s) :
    ExpectsOperand ts ↔ ∃ f outer, s = expecting f outer := by
  simp only [ExpectsOperand, h.viable_append_iff]
  cases s with
  | expecting f outer => exact ⟨fun _ => ⟨f, outer, rfl⟩, fun _ => ⟨"A", _, rfl⟩⟩
  | complete f e outer =>
      constructor
      · rintro ⟨name, s', hstep⟩
        cases outer <;> cases hstep
      · rintro ⟨f', outer', hs⟩
        cases hs

/-- A state has a complete operand inside an open parenthesis exactly where the tokens end in one.
-/
theorem inParenthesis_iff (h : Reached ts s) :
    InParenthesis ts ↔ ∃ f e g outer, s = complete f e (g :: outer) := by
  constructor
  · rintro ⟨us, vs, rfl, e, he⟩
    -- an operand is expected in front of the parenthesis and read in a new frame behind it
    obtain ⟨s₀, hs₀⟩ := exists_reached h.viable.of_append
    have hopening : Viable (us ++ [.opening] ++ vs) := by simpa using h.viable
    obtain ⟨s₁, hstep⟩ := hs₀.viable_append_iff.1 hopening.of_append
    cases s₀ with
    | complete f d outer => cases outer <;> cases hstep
    | expecting f outer =>
        obtain ⟨g, x, -, hrun⟩ := takes_of_spells he .fresh
        have hunclosed : s.finish = .error (.missingParen none) := by
          calc s.finish = (expecting f outer).run (.opening :: vs) := by
                rw [← h.ofTokens_eq, hs₀.ofTokens_append]
            _ = (expecting .fresh (f :: outer)).run (vs ++ []) := by
                rw [List.append_nil]
                exact run_cons rfl
            _ = (complete g x (f :: outer)).run [] := hrun ..
        cases s with
        | expecting f' outer' => cases hunclosed
        | complete f' d outer' =>
            cases outer' with
            | nil => cases hunclosed
            | cons g' outer' => exact ⟨f', d, g', outer', rfl⟩
  · rintro ⟨f, e, g, outer, rfl⟩
    cases h.consumed with
    | complete houter hread =>
        cases houter with
        | @cons _ _ ts us houter hopen =>
            exact ⟨ts ++ us, _, by simp, _, hread.whole⟩

end Reached

end ParseState

open ParseState

/-- Tokens that are not viable have a first one with which they stop being so. -/
theorem exists_first_of_not_viable (h : ¬ Viable ts) :
    ∃ us t vs, ts = us ++ t :: vs ∧ Viable us ∧ ¬ Viable (us ++ [t]) := by
  induction ts using List.reverseRecOn with
  | nil => exact absurd Reached.start.viable h
  | append_singleton ts t ih =>
      by_cases hts : Viable ts
      · exact ⟨ts, t, [], rfl, hts, h⟩
      · obtain ⟨us, t', vs, rfl, hus, hfirst⟩ := ih hts
        exact ⟨us, t', vs ++ [t], by simp, hus, hfirst⟩

/-- A refusal blames the first token with which the tokens can no longer be extended to an
expression, and the end if they can. It says that the token or the end stands where an operand is
expected, or else that a parenthesis is open behind a complete operand, or else that a complete
expression goes on. A text is refused as its tokens are, and for a stray character before that. -/
theorem refusal_blames_first_token :
    (∀ ts, ¬ IsExpression ts → Viable ts →
      (ExpectsOperand ts → Expr.ofTokens ts = .error .unexpectedEnd) ∧
      (¬ ExpectsOperand ts → Expr.ofTokens ts = .error (.missingParen none))) ∧
    (∀ ts, ¬ Viable ts → ∃ us t vs, ts = us ++ t :: vs ∧ Viable us ∧ ¬ Viable (us ++ [t])) ∧
    (∀ us t vs, Viable us → ¬ Viable (us ++ [t]) →
      (ExpectsOperand us → Expr.ofTokens (us ++ t :: vs) = .error (.unexpectedToken t)) ∧
      (InParenthesis us → Expr.ofTokens (us ++ t :: vs) = .error (.missingParen (some t))) ∧
      (¬ ExpectsOperand us → ¬ InParenthesis us →
        Expr.ofTokens (us ++ t :: vs) = .error (.trailingInput t))) ∧
    ∀ text, (∀ placed, Token.ofText text = .ok placed →
        Expr.parse text = Expr.ofTokens (placed.map (·.token))) ∧
      ∀ stray, Token.ofText text = .error stray → Expr.parse text = .error (.stray stray) := by
  refine ⟨fun ts hnot hviable => ?_, fun ts => exists_first_of_not_viable,
    fun us t vs hviable hnot => ?_, fun text => ⟨fun placed h => ?_, fun stray h => ?_⟩⟩
  · obtain ⟨s, hs⟩ := exists_reached hviable
    have hend := hs.ofTokens_eq
    rw [hs.expectsOperand_iff]
    cases s with
    | expecting f outer => exact ⟨fun _ => hend, fun h => absurd ⟨f, outer, rfl⟩ h⟩
    | complete f e outer =>
        cases outer with
        | nil => exact absurd (hs.isExpression_iff.2 ⟨f, e, rfl⟩) hnot
        | cons g outer => exact ⟨by simp, fun _ => hend⟩
  · obtain ⟨s, hs⟩ := exists_reached hviable
    rw [hs.viable_append_iff] at hnot
    rw [hs.expectsOperand_iff, hs.inParenthesis_iff]
    cases hstep : s.step t with
    | ok s' => exact absurd ⟨s', hstep⟩ hnot
    | error reason =>
        have herror := hs.error hstep vs
        obtain ⟨f, outer, rfl, rfl⟩ | ⟨f, e, g, outer, rfl, rfl⟩ | ⟨f, e, rfl, rfl⟩ :=
          step_error_cases hstep
        · exact ⟨fun _ => herror, by simp, fun h => absurd ⟨f, outer, rfl⟩ h⟩
        · exact ⟨by simp, fun _ => herror, fun _ h => absurd ⟨f, e, g, outer, rfl⟩ h⟩
        · exact ⟨by simp, by simp, fun _ _ => herror⟩
  · rw [Expr.parse, h]
  · rw [Expr.parse, h]

/-- The five refusals of tokens, and those of a text. -/
theorem refusal_blames_first_token_each :
    let a : Token := .var "A"
    (¬ IsExpression [a, .operator .xor] ∧ Viable [a, .operator .xor] ∧
      ExpectsOperand [a, .operator .xor] ∧
      Expr.ofTokens [a, .operator .xor] = .error .unexpectedEnd) ∧
    (¬ IsExpression [.opening, a] ∧ Viable [.opening, a] ∧ ¬ ExpectsOperand [.opening, a] ∧
      Expr.ofTokens [.opening, a] = .error (.missingParen none)) ∧
    (Viable [.not] ∧ ¬ Viable [.not, .closing] ∧ ExpectsOperand [.not] ∧
      Expr.ofTokens [.not, .closing, a] = .error (.unexpectedToken .closing)) ∧
    (¬ Viable [.opening, a, a] ∧ InParenthesis [.opening, a] ∧
      Expr.ofTokens [.opening, a, a, a] = .error (.missingParen (some a))) ∧
    (Viable [a] ∧ ¬ Viable [a, .closing] ∧ ¬ ExpectsOperand [a] ∧ ¬ InParenthesis [a] ∧
      Expr.ofTokens [a, .closing] = .error (.trailingInput .closing) ∧
      ∃ us t vs, [a, .closing] = us ++ t :: vs ∧ Viable us ∧ ¬ Viable (us ++ [t])) ∧
    Token.ofText "A )" = .ok [⟨a, 0⟩, ⟨.closing, 2⟩] ∧
    Expr.parse "A )" = .error (.trailingInput .closing) ∧
    Token.ofText "A ) ?" = .error ⟨'?', 4⟩ ∧ Expr.parse "A ) ?" = .error (.stray ⟨'?', 4⟩) := by
  intro a
  obtain ⟨hend, hfirst, htoken, htext⟩ := refusal_blames_first_token
  have hxor : Reached [a, .operator .xor] _ := .step (.step .start rfl) rfl
  have hopening : Reached [.opening, a] _ := .step (.step .start rfl) rfl
  have hnot : Reached [.not] _ := .step .start rfl
  have ha : Reached [a] _ := .step .start rfl
  have hstuck : ∀ {ts s t reason}, Reached ts s → s.step t = .error reason →
      ¬ Viable (ts ++ [t]) := fun hs hstep h => by
    obtain ⟨s', hstep'⟩ := hs.viable_append_iff.1 h
    cases hstep.symm.trans hstep'
  have hpart : ¬ IsExpression [a, .operator .xor] := by simp [hxor.isExpression_iff]
  have hexpects : ExpectsOperand [a, .operator .xor] := hxor.expectsOperand_iff.2 ⟨_, _, rfl⟩
  have hpart' : ¬ IsExpression [.opening, a] := by simp [hopening.isExpression_iff]
  have hcomplete : ¬ ExpectsOperand [.opening, a] := by simp [hopening.expectsOperand_iff]
  have hexpects' : ExpectsOperand [.not] := hnot.expectsOperand_iff.2 ⟨_, _, rfl⟩
  have hinside : InParenthesis [.opening, a] := hopening.inParenthesis_iff.2 ⟨_, _, _, _, rfl⟩
  have hcomplete' : ¬ ExpectsOperand [a] := by simp [ha.expectsOperand_iff]
  have houtside : ¬ InParenthesis [a] := by simp [ha.inParenthesis_iff]
  have htrailing : Expr.ofTokens [a, .closing] = .error (.trailingInput .closing) :=
    (htoken _ _ [] ha.viable (hstuck ha rfl)).2.2 hcomplete' houtside
  have hplaced : Token.ofText "A )" = .ok [⟨a, 0⟩, ⟨.closing, 2⟩] := by decide +kernel
  have hstray : Token.ofText "A ) ?" = .error ⟨'?', 4⟩ := by decide +kernel
  exact ⟨⟨hpart, hxor.viable, hexpects, (hend _ hpart hxor.viable).1 hexpects⟩,
    ⟨hpart', hopening.viable, hcomplete, (hend _ hpart' hopening.viable).2 hcomplete⟩,
    ⟨hnot.viable, hstuck hnot rfl, hexpects',
      (htoken _ _ [a] hnot.viable (hstuck hnot rfl)).1 hexpects'⟩,
    ⟨hstuck hopening rfl, hinside,
      (htoken _ _ [a] hopening.viable (hstuck hopening rfl)).2.1 hinside⟩,
    ⟨ha.viable, hstuck ha rfl, hcomplete', houtside, htrailing, hfirst _ (hstuck ha rfl)⟩,
    hplaced, ((htext _).1 _ hplaced).trans htrailing, hstray, (htext _).2 _ hstray⟩

end LogicCircuit
