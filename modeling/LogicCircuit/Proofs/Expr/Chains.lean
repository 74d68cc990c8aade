import LogicCircuit.Proofs.Expr.Grammar

/-!
# Texts of chains

`Writes` says that characters are read as an expression of some sort wherever no letter or digit
follows, and it is put together as the grammar is: names, negations, parentheses, and operands
with an operator between them (`Writes.join`). A text that writes a chain is parsed as what it
writes (`Writes.parse`). What a chain of conjunctions or disjunctions is worth, is told by its
operands (`eval_chain_all`, `eval_chain_any`).
-/

namespace LogicCircuit

namespace Expr

/-- The operands with an operator between them, grouped to the left. -/
def chain (op : BinaryOp) (first : Expr) (rest : List Expr) : Expr := rest.foldl (binary op) first

variable {p q : Phrase} {cs cs' : List Char} {a b e first : Expr} {rest : List Expr}
  {op : BinaryOp} {s : Strength} {name : String} {on : Bool} {value : String → Bool}

/-- A separator stands in front of everything but the first. -/
theorem intercalate_cons {α : Type} (separator first : List α) (rest : List (List α)) :
    separator.intercalate (first :: rest) = first ++ rest.flatMap (separator ++ ·) := by
  induction rest generalizing first with
  | nil => simp
  | cons next rest ih => rw [List.intercalate_cons_cons, ih, List.flatMap_cons]; simp

/-! ## Reading a phrase -/

/-- Wherever no letter or digit follows, the characters are scanned as tokens that spell an
expression as a phrase of some sort. -/
def Writes (p : Phrase) (cs : List Char) (e : Expr) : Prop :=
  ∃ ts, (∀ rest : List Char, (∀ x ∈ rest.head?, x.isAlphanum = false) → Token.Scans cs ts rest) ∧
    Spells p ts e

namespace Writes

/-- A name writes its variable. -/
theorem var (h : IsName name) : Writes .primary name.toList (var name) := by
  refine ⟨[.var name], fun rest hrest => ?_, .var name⟩
  have hword := Token.Scans.capitalWord h.1 hrest
  rwa [Token.ofWord_of_isName h] at hword

/-- What is a phrase of another sort as well is written as one. -/
theorem lift (hsort : ∀ ts, Spells p ts e → Spells q ts e) (h : Writes p cs e) :
    Writes q cs e := by
  obtain ⟨ts, hscans, hspells⟩ := h
  exact ⟨ts, hscans, hsort ts hspells⟩

/-- What stands for itself needs no negation in front of it. -/
theorem unnegated (h : Writes .primary cs e) : Writes .negation cs e := h.lift fun _ => .primary

/-- An operand is a chain by itself. -/
theorem single (h : Writes s.operand cs e) : Writes (.chain s) cs e := h.lift fun _ => .single

/-- A negation is written in front of its operand. -/
theorem not (h : Writes .negation cs e) : Writes .negation ("NOT ".toList ++ cs) (not e) := by
  obtain ⟨ts, hscans, hspells⟩ := h
  refine ⟨.not :: ts, fun rest hrest => ?_, hspells.not⟩
  have hword : Token.Scans "NOT".toList [.not] (' ' :: cs ++ rest) :=
    Token.ofWord_not ▸ .capitalWord (by decide) (by simp)
  exact hword.append ((hscans rest hrest).blank (by decide))

/-- An expression in parentheses is written as an operand. -/
theorem group (h : Writes (.chain .or) cs e) : Writes .primary ('(' :: (cs ++ [')'])) e := by
  obtain ⟨ts, hscans, hspells⟩ := h
  refine ⟨.opening :: (ts ++ [.closing]), fun rest _ => ?_, hspells.group⟩
  have hopening : Token.Scans ['('] [.opening] ((cs ++ [')']) ++ rest) :=
    .symbol (by decide) (by decide) rfl
  have hclosing : Token.Scans [')'] [.closing] rest := .symbol (by decide) (by decide) rfl
  exact hopening.append ((hscans ([')'] ++ rest) (by simp)).append hclosing)

/-- What can be negated can be an operand of any operator. -/
theorem operand (h : Writes .negation cs e) (s : Strength) : Writes s.operand cs e := by
  cases s with
  | and => exact h
  | xor => exact h.single (s := .and)
  | or => exact (h.single (s := .and)).single (s := .xor)

/-- A chain of any strength is a whole expression. -/
theorem whole (h : Writes (.chain s) cs e) : Writes (.chain .or) cs e := by
  cases s with
  | or => exact h
  | xor => exact h.single (s := .or)
  | and => exact (h.single (s := .xor)).single (s := .or)

/-- A chain goes on with one more operand. -/
theorem more (ha : Writes (.chain op.strength) cs a) (hb : Writes op.strength.operand cs' b) :
    Writes (.chain op.strength) (cs ++ ((" " ++ op.name ++ " ").toList ++ cs'))
      (binary op a b) := by
  obtain ⟨ts, hscans, hspells⟩ := ha
  obtain ⟨us, hscans', hspells'⟩ := hb
  refine ⟨ts ++ .operator op :: us, fun rest hrest => ?_, hspells.more hspells'⟩
  have hoperator : Token.Scans op.name.toList [.operator op] (' ' :: cs' ++ rest) :=
    Token.ofWord_name op ▸ .capitalWord (Token.isCapitalWord_name op) (by simp)
  have hlink := (hoperator.append ((hscans' rest hrest).blank (by decide))).blank
    (c := ' ') (by decide)
  have htext : (" " ++ op.name ++ " ").toList ++ cs' =
      ' ' :: (op.name.toList ++ ' ' :: cs') := by simp
  rw [htext]
  exact (hscans _ (by simp)).append hlink

/-- A chain goes on with any number of operands. -/
theorem extend {α : Type} {text : α → String} {operand : α → Expr} {xs : List α}
    (ha : Writes (.chain op.strength) cs a)
    (hxs : ∀ x ∈ xs, Writes op.strength.operand (text x).toList (operand x)) :
    Writes (.chain op.strength)
      (cs ++ xs.flatMap fun x => (" " ++ op.name ++ " ").toList ++ (text x).toList)
      (chain op a (xs.map operand)) := by
  induction xs generalizing cs a with
  | nil => simpa [chain] using ha
  | cons x xs ih =>
      obtain ⟨hx, hxs⟩ := List.forall_mem_cons.1 hxs
      have hall := ih (ha.more hx) hxs
      rwa [List.append_assoc] at hall

/-- Operands joined by an operator write a chain. -/
theorem join {α : Type} {text : α → String} {operand : α → Expr} {x : α} {xs : List α}
    (h : ∀ y ∈ x :: xs, Writes op.strength.operand (text y).toList (operand y)) :
    Writes (.chain op.strength)
      ((" " ++ op.name ++ " ").intercalate ((x :: xs).map text)).toList
      (chain op (operand x) (xs.map operand)) := by
  obtain ⟨hx, hxs⟩ := List.forall_mem_cons.1 h
  have hall := hx.single.extend hxs
  rw [← List.flatMap_map (f := fun x => (text x).toList)
    (g := ((" " ++ op.name ++ " ").toList ++ ·)), ← intercalate_cons] at hall
  rw [String.toList_intercalate, List.map_cons, List.map_cons, List.map_map]
  exact hall

/-- A text that writes a whole expression is parsed as this. -/
theorem parse {text : String} (h : Writes (.chain .or) text.toList e) : parse text = .ok e := by
  obtain ⟨ts, hscans, hspells⟩ := h
  exact (parse_of_scans (hscans [] (by simp))).trans (ofTokens_eq_ok_iff.2 hspells)

end Writes

/-! ## Values of chains -/

/-- A chain has a value that all operands must have exactly if they all have it. -/
theorem eval_chain_all (hop : ∀ a b, op.apply a b = on ↔ a = on ∧ b = on) :
    (chain op first rest).eval value = on ↔ ∀ x ∈ first :: rest, x.eval value = on := by
  induction rest generalizing first with
  | nil => simp [chain]
  | cons x rest ih =>
      rw [chain, List.foldl_cons, ← chain, ih]
      simp [eval, hop, and_assoc]

/-- A chain has a value that one operand must have exactly if one of them has it. -/
theorem eval_chain_any (hop : ∀ a b, op.apply a b = on ↔ a = on ∨ b = on) :
    (chain op first rest).eval value = on ↔ ∃ x ∈ first :: rest, x.eval value = on := by
  have hnone : (chain op first rest).eval value = !on ↔
      ∀ x ∈ first :: rest, x.eval value = !on :=
    eval_chain_all fun a b => by simpa [Bool.eq_not_iff] using not_congr (hop a b)
  rw [← not_iff_not]
  simpa [Bool.eq_not_iff] using hnone

end Expr

end LogicCircuit
