import LogicCircuit.RandomExpr
import LogicCircuit.Proofs.Circuit.Naming
import LogicCircuit.Proofs.Expr.RoundTrip

/-!
# What random expressions look like

Whatever answers the random choices, an expression that they give keeps its bounds
(`Generator.node_within`), and every expression within the bounds is given by some choices
(`Generator.exists_choices`). No name of a variable is a keyword or the name of another
(`isName_variableName`, `variableName_injective`), so the printed form is read back. A generator
over words answers the same with more tries (`RandomExpr.extends_generator`). The number of tries
decides whether an expression is found and not which one, and `RandomExpr.Drawn` leaves it open.
-/

namespace LogicCircuit

/-! ## Names of variables -/

section Names

variable {i : Nat}

theorem variableName_of_ge (h : 26 ≤ i) : variableName i = "X" ++ i.repr := by
  rw [variableName, if_neg (by omega)]
  rfl

theorem toList_variableName (h : 26 ≤ i) :
    (variableName i).toList = 'X' :: Nat.toDigits 10 i := by
  rw [variableName_of_ge h, String.toList_append, Nat.toList_repr]
  rfl

theorem variableName_of_lt (h : i < 26) :
    variableName i = String.singleton (Char.ofNat ('A'.toNat + i)) := by
  rw [variableName, if_pos h]

/-- The first names are letters. -/
theorem length_variableName_of_lt (h : i < 26) : (variableName i).length = 1 := by
  rw [variableName_of_lt h, String.length_singleton]

/-- The names behind the letters are longer. -/
theorem one_lt_length_variableName (h : 26 ≤ i) : 1 < (variableName i).length := by
  have hdigits : 0 < (Nat.toDigits 10 i).length := List.length_pos_iff.2 Nat.toDigits_ne_nil
  rw [← String.length_toList, toList_variableName h, List.length_cons]
  omega

/-- The name of a variable can be written: no keyword is one letter, and none has a digit. -/
theorem isName_variableName (i : Nat) : IsName (variableName i) := by
  rcases Nat.lt_or_ge i 26 with h | h
  · have hupper : ∀ i < 26, (Char.ofNat ('A'.toNat + i)).isUpper := by decide
    have hlong : ∀ k ∈ ["AND", "OR", "NOT", "XOR", "NAND", "NOR"], k.length ≠ 1 := by decide
    refine ⟨?_, fun hkeyword => hlong _ hkeyword (length_variableName_of_lt h)⟩
    rw [variableName_of_lt h, String.toList_singleton, isCapitalWord, hupper i h]
    rfl
  · have hdigits : ∀ c ∈ Nat.toDigits 10 i, c.isDigit := fun c hc =>
      Nat.isDigit_of_mem_toDigits (by decide) (by decide) hc
    obtain ⟨d, hd⟩ := List.exists_mem_of_ne_nil _ (Nat.toDigits_ne_nil (n := i) (b := 10))
    refine ⟨?_, fun hkeyword => ?_⟩
    · rw [toList_variableName h]
      simpa [isCapitalWord] using fun c hc => Or.inr (hdigits c hc)
    · have hnone : ∀ k ∈ ["AND", "OR", "NOT", "XOR", "NAND", "NOR"], ∀ c ∈ k.toList,
          c.isDigit = false := by simp [Char.isDigit]
      have hmem : d ∈ (variableName i).toList :=
        toList_variableName h ▸ List.mem_cons_of_mem _ hd
      have hno := hnone _ hkeyword d hmem
      rw [hdigits d hd] at hno
      cases hno

/-- Two variables have two names. -/
theorem variableName_injective : Function.Injective variableName := by
  intro i j h
  have hlength := congrArg String.length h
  rcases Nat.lt_or_ge i 26 with hi | hi <;> rcases Nat.lt_or_ge j 26 with hj | hj
  · have hletters : ∀ i < 26, ∀ j < 26, variableName i = variableName j → i = j := by
      decide +kernel
    exact hletters i hi j hj h
  · have := one_lt_length_variableName hj
    rw [length_variableName_of_lt hi] at hlength
    omega
  · have := one_lt_length_variableName hi
    rw [length_variableName_of_lt hj] at hlength
    omega
  · rw [variableName_of_ge hi, variableName_of_ge hj] at h
    exact append_repr_injective "X" h

end Names

/-! ## Bounds -/

/-- An expression is within its bounds: it is of at most some depth, and its variables bear the
first names. -/
structure Expr.Within (breadth depth : Nat) (e : Expr) : Prop where
  /-- No branch has more operators. -/
  depth_le : e.depth ≤ depth
  /-- Every variable is one of the first. -/
  names : ∀ v ∈ e.occurrences, ∃ i < breadth, v = variableName i

/-- What is said of a random expression: it is within its bounds, it has no more variables than
there are names, and its printed form is read back. -/
structure Expr.Presentable (breadth depth : Nat) (e : Expr) : Prop
    extends Expr.Within breadth depth e where
  /-- There are no more variables than names. -/
  few : e.variableNames.length ≤ breadth
  /-- The printed form is that of this expression. -/
  readBack : Expr.parse e.text = .ok e

namespace Expr.Within

variable {breadth depth : Nat} {e e' : Expr}

/-- A deeper bound is kept as well. -/
theorem mono {deeper : Nat} (h : e.Within breadth depth) (hle : depth ≤ deeper) :
    e.Within breadth deeper :=
  ⟨h.depth_le.trans hle, h.names⟩

theorem not (h : e.Within breadth depth) : (Expr.not e).Within breadth (depth + 1) := by
  refine ⟨?_, h.names⟩
  have := h.depth_le
  rw [Expr.depth]
  omega

theorem of_not (h : (Expr.not e).Within breadth (depth + 1)) : e.Within breadth depth := by
  refine ⟨?_, h.names⟩
  have := h.depth_le
  rw [Expr.depth] at this
  omega

theorem binary (op : BinaryOp) (h : e.Within breadth depth) (h' : e'.Within breadth depth) :
    (Expr.binary op e e').Within breadth (depth + 1) := by
  refine ⟨?_, fun v hv => (List.mem_append.1 hv).elim (h.names v) (h'.names v)⟩
  have hmax : max e.depth e'.depth ≤ depth := max_le h.depth_le h'.depth_le
  rw [Expr.depth]
  omega

theorem of_binary {op : BinaryOp} (h : (Expr.binary op e e').Within breadth (depth + 1)) :
    e.Within breadth depth ∧ e'.Within breadth depth := by
  have hdepth := h.depth_le
  rw [Expr.depth] at hdepth
  exact ⟨⟨by omega, fun v hv => h.names v (List.mem_append_left _ hv)⟩,
    ⟨by omega, fun v hv => h.names v (List.mem_append_right _ hv)⟩⟩

theorem wellNamed (h : e.Within breadth depth) : e.WellNamed := by
  intro v hv
  obtain ⟨i, -, rfl⟩ := h.names v hv
  exact isName_variableName i

theorem length_variableNames_le (h : e.Within breadth depth) :
    e.variableNames.length ≤ breadth := by
  have hsub : e.variableNames ⊆ (List.range breadth).map variableName := by
    intro v hv
    obtain ⟨i, hi, rfl⟩ := h.names v (mem_variableNames_iff.1 hv)
    exact List.mem_map_of_mem (List.mem_range.2 hi)
  have hle := (List.subperm_of_subset e.nodup_variableNames hsub).length_le
  rwa [List.length_map, List.length_range] at hle

/-- What is within its bounds is presentable. -/
theorem presentable (h : e.Within breadth depth) : e.Presentable breadth depth :=
  ⟨h, h.length_variableNames_le, parse_text h.wellNamed⟩

end Expr.Within

/-! ## Any choices -/

namespace Generator

variable {σ : Type} {g g' : Generator σ} {breadth depth : Nat} {s s' : σ} {e e' : Expr}

/-- A drawn leaf is a constant or one of the first variables. -/
theorem leaf_within (h : g.leaf breadth s = some (e, s')) : e.Within breadth 0 := by
  simp only [leaf] at h
  split at h
  case isTrue =>
    obtain ⟨rfl, -⟩ := Prod.mk.inj (Option.some.inj h)
    exact ⟨le_rfl, by simp [Expr.occurrences]⟩
  case isFalse =>
    obtain ⟨⟨i, t⟩, -, h⟩ := Option.bind_eq_some_iff.1 h
    obtain ⟨rfl, -⟩ := Prod.mk.inj (Option.some.inj h)
    exact ⟨le_rfl, fun v hv => ⟨i, i.isLt, List.mem_singleton.1 hv⟩⟩

/-- A drawn expression is within its bounds, whatever the choices are. -/
theorem node_within (h : g.node breadth depth s = some (e, s')) : e.Within breadth depth := by
  induction depth generalizing s s' e with
  | zero => exact leaf_within h
  | succ depth ih =>
      simp only [node] at h
      split at h
      case isTrue => exact (leaf_within h).mono (Nat.zero_le _)
      case isFalse =>
        split at h
        case isTrue =>
          obtain ⟨⟨a, t⟩, ha, h⟩ := Option.bind_eq_some_iff.1 h
          obtain ⟨rfl, -⟩ := Prod.mk.inj (Option.some.inj h)
          exact (ih ha).not
        case isFalse =>
          obtain ⟨⟨op, t⟩, -, h⟩ := Option.bind_eq_some_iff.1 h
          obtain ⟨⟨a, t'⟩, ha, h⟩ := Option.bind_eq_some_iff.1 h
          obtain ⟨⟨b, t''⟩, hb, h⟩ := Option.bind_eq_some_iff.1 h
          obtain ⟨rfl, -⟩ := Prod.mk.inj (Option.some.inj h)
          exact (ih ha).binary op (ih hb)

/-- There is an expression only where there are variables, and it is what `node` draws. -/
theorem expr?_eq_some_iff :
    g.expr? breadth depth s = some e ↔
      0 < breadth ∧ ∃ s', g.node breadth depth s = some (e, s') := by
  rw [expr?]
  split
  case isTrue hb => simp [hb]
  case isFalse hb => simp [Nat.pos_of_ne_zero hb]

/-! ## All expressions within the bounds -/

/-- Choices that are listed beforehand: a one says that something comes to pass. -/
def listed : Generator (List Nat) where
  chance _ choices := (choices.head? == some 1, choices.tail)
  bit choices := (choices.head? == some 1, choices.tail)
  below n choices := choices.head?.bind fun k =>
    if hk : k < n then some (⟨k, hk⟩, choices.tail) else none

/-- A constant, or one of the first variables, is what some choices give for a leaf. -/
theorem exists_leaf_listed (h : e.Within breadth 0) :
    ∃ choices, ∀ rest, listed.leaf breadth (choices ++ rest) = some (e, rest) := by
  cases e with
  | const on => exact ⟨[1, on.toNat], fun rest => by cases on <;> rfl⟩
  | var v =>
      obtain ⟨i, hi, rfl⟩ := h.names v (List.mem_singleton_self v)
      exact ⟨[0, i], fun rest => by simp [leaf, listed, hi]⟩
  | not a => exact absurd h.depth_le (by simp [Expr.depth])
  | binary op a b => exact absurd h.depth_le (by simp [Expr.depth])

theorem exists_operator_listed (op : BinaryOp) :
    ∃ k, ∀ rest, listed.operator (k :: rest) = some (op, rest) := by
  cases op with
  | and => exact ⟨0, fun _ => rfl⟩
  | or => exact ⟨1, fun _ => rfl⟩
  | xor => exact ⟨2, fun _ => rfl⟩
  | nand => exact ⟨3, fun _ => rfl⟩
  | nor => exact ⟨4, fun _ => rfl⟩

/-- Every expression within the bounds is what some choices give. -/
theorem exists_node_listed (h : e.Within breadth depth) :
    ∃ choices, ∀ rest, listed.node breadth depth (choices ++ rest) = some (e, rest) := by
  induction depth generalizing e with
  | zero => exact exists_leaf_listed h
  | succ depth ih =>
      cases e with
      | const | var =>
          obtain ⟨choices, hchoices⟩ := exists_leaf_listed ⟨le_rfl, h.names⟩
          exact ⟨1 :: choices, hchoices⟩
      | not a =>
          obtain ⟨choices, hchoices⟩ := ih h.of_not
          exact ⟨0 :: 1 :: choices, fun rest =>
            Option.bind_eq_some_iff.2 ⟨_, hchoices rest, rfl⟩⟩
      | binary op a b =>
          obtain ⟨ha, hb⟩ := h.of_binary
          obtain ⟨k, hk⟩ := exists_operator_listed op
          obtain ⟨left, hleft⟩ := ih ha
          obtain ⟨right, hright⟩ := ih hb
          refine ⟨0 :: 0 :: k :: (left ++ right), fun rest => ?_⟩
          rw [List.cons_append, List.cons_append, List.cons_append, List.append_assoc]
          exact Option.bind_eq_some_iff.2 ⟨_, hk _, Option.bind_eq_some_iff.2 ⟨_, hleft _,
            Option.bind_eq_some_iff.2 ⟨_, hright rest, rfl⟩⟩⟩

/-- Random expressions are the expressions within the bounds: all of these are given by some
choices. -/
theorem exists_choices (hb : 0 < breadth) (h : e.Within breadth depth) :
    ∃ choices, listed.expr? breadth depth choices = some e := by
  obtain ⟨choices, hchoices⟩ := exists_node_listed h
  exact ⟨choices ++ [], expr?_eq_some_iff.2 ⟨hb, [], hchoices []⟩⟩

/-! ## Generators that find more -/

/-- A generator answers as another one does wherever that one finds a number. -/
structure Extends (g g' : Generator σ) : Prop where
  /-- The same comes to pass. -/
  chance : g'.chance = g.chance
  /-- The bits are the same. -/
  bit : g'.bit = g.bit
  /-- Where a number is found, it is the same. -/
  below {n : Nat} {s : σ} {r : Fin n × σ} : g.below n s = some r → g'.below n s = some r

namespace Extends

variable (hg : g.Extends g')

include hg

/-- The same leaf is drawn. -/
theorem leaf {r : Expr × σ} (h : g.leaf breadth s = some r) : g'.leaf breadth s = some r := by
  simp only [Generator.leaf, hg.chance, hg.bit] at h ⊢
  split at h
  case isTrue hconst => rwa [if_pos hconst]
  case isFalse hconst =>
    rw [if_neg hconst]
    obtain ⟨i, hi, h⟩ := Option.bind_eq_some_iff.1 h
    exact Option.bind_eq_some_iff.2 ⟨i, hg.below hi, h⟩

/-- The same operator is drawn. -/
theorem operator {r : BinaryOp × σ} (h : g.operator s = some r) : g'.operator s = some r := by
  obtain ⟨i, hi, h⟩ := Option.bind_eq_some_iff.1 h
  exact Option.bind_eq_some_iff.2 ⟨i, hg.below hi, h⟩

/-- The same expression is drawn. -/
theorem node {r : Expr × σ} (h : g.node breadth depth s = some r) :
    g'.node breadth depth s = some r := by
  induction depth generalizing s r with
  | zero => exact hg.leaf h
  | succ depth ih =>
      simp only [Generator.node, hg.chance] at h ⊢
      split at h
      case isTrue hleaf =>
        rw [if_pos hleaf]
        exact hg.leaf h
      case isFalse hleaf =>
        rw [if_neg hleaf]
        split at h
        case isTrue hnot =>
          rw [if_pos hnot]
          obtain ⟨a, ha, h⟩ := Option.bind_eq_some_iff.1 h
          exact Option.bind_eq_some_iff.2 ⟨a, ih ha, h⟩
        case isFalse hnot =>
          rw [if_neg hnot]
          obtain ⟨op, hop, h⟩ := Option.bind_eq_some_iff.1 h
          obtain ⟨a, ha, h⟩ := Option.bind_eq_some_iff.1 h
          obtain ⟨b, hb, h⟩ := Option.bind_eq_some_iff.1 h
          exact Option.bind_eq_some_iff.2 ⟨op, hg.operator hop,
            Option.bind_eq_some_iff.2 ⟨a, ih ha, Option.bind_eq_some_iff.2 ⟨b, ih hb, h⟩⟩⟩

end Extends

end Generator

/-! ## Choices from words -/

namespace RandomExpr

variable {σ : Type} {draw : σ → UInt64 × σ} {n tries more breadth depth : Nat} {s : σ}
  {e e' : Expr}

/-- More tries draw the same number. -/
theorem below_mono {hn : 0 < n} {r : Fin n × σ} (hle : tries ≤ more)
    (h : below draw hn tries s = some r) : below draw hn more s = some r := by
  induction tries generalizing s more with
  | zero => cases h
  | succ tries ih =>
      cases more with
      | zero => exact absurd hle (Nat.not_succ_le_zero tries)
      | succ more =>
          simp only [below] at h ⊢
          split at h
          case isTrue hzone => rwa [if_pos hzone]
          case isFalse hzone =>
            rw [if_neg hzone]
            exact ih (Nat.le_of_succ_le_succ hle) h

/-- More tries answer the same choices. -/
theorem extends_generator (hle : tries ≤ more) :
    (generator draw tries).Extends (generator draw more) where
  chance := rfl
  bit := rfl
  below {n s r} h := by
    simp only [generator] at h ⊢
    split at h
    case isTrue hn =>
      rw [dif_pos hn]
      exact below_mono hle h
    case isFalse => cases h

/-- The words give the expression, in however many tries. -/
def Drawn (draw : σ → UInt64 × σ) (breadth depth : Nat) (s : σ) (e : Expr) : Prop :=
  ∃ tries, (generator draw tries).expr? breadth depth s = some e

/-- Words give one expression at most. -/
theorem Drawn.unique (h : Drawn draw breadth depth s e) (h' : Drawn draw breadth depth s e') :
    e = e' := by
  obtain ⟨tries, h⟩ := h
  obtain ⟨tries', h'⟩ := h'
  obtain ⟨-, t, h⟩ := Generator.expr?_eq_some_iff.1 h
  obtain ⟨-, t', h'⟩ := Generator.expr?_eq_some_iff.1 h'
  have hmax := (extends_generator (le_max_left tries tries')).node h
  rw [(extends_generator (le_max_right tries tries')).node h'] at hmax
  exact (Prod.mk.inj (Option.some.inj hmax)).1.symm

/-- The next word of a list, and the words behind it. -/
def scripted : List UInt64 → UInt64 × List UInt64
  | [] => (0, [])
  | word :: words => (word, words)

/-- Words for an operator and two variables; the fifth is turned down. -/
def script : List UInt64 :=
  let top := 0xFFFFFFFFFFFFFFFF
  -- the fourth of five operators, and the last of 27 names
  let nand := 0x999999999999999A
  let last := 0xF684BDA12F684BDB
  [top, top, nand, top, top, 0, top, last]

/-- The greatest word is in no part of all words. -/
theorem chance_top (d : Nat) (words : List UInt64) :
    chance scripted d (0xFFFFFFFFFFFFFFFF :: words) = (false, words) := by
  have hle : ¬ 0xFFFFFFFFFFFFFFFF < oneIn d :=
    UInt64.not_lt.2 (UInt64.le_iff_toNat_le.2 (Nat.le_of_lt_succ (oneIn d).toNat_lt))
  simp [chance, scripted, hle]

theorem drawn_script :
    Drawn scripted 27 1 script (.binary .nand (.var "A") (.var "X26")) := by
  refine ⟨2, Generator.expr?_eq_some_iff.2 ⟨by decide, [], ?_⟩⟩
  simp only [script, Generator.node, Generator.leaf, Generator.operator, generator, chance_top]
  rfl

/-- Whether the first word makes a constant or not, the words behind it give a number. -/
theorem exists_randomExpr? : ∃ e, randomExpr? 1 0 0 = some e := by
  have hnumber :
      ((generator Stream.next patience).below 1 (Stream.next (.ofSeed 0)).2).isSome := by
    decide +kernel
  obtain ⟨number, hnumber⟩ := Option.isSome_iff_exists.1 hnumber
  have hleaf : ∃ r, (generator Stream.next patience).leaf 1 (.ofSeed 0) = some r := by
    simp only [Generator.leaf]
    split
    case isTrue => exact ⟨_, rfl⟩
    case isFalse => exact ⟨_, Option.bind_eq_some_iff.2 ⟨number, hnumber, rfl⟩⟩
  obtain ⟨⟨e, s⟩, hleaf⟩ := hleaf
  exact ⟨e, Generator.expr?_eq_some_iff.2 ⟨by decide, s, hleaf⟩⟩

end RandomExpr

open Generator RandomExpr

/-- Whatever answers the random choices, an expression that they give is within its bounds, and
its printed form is read back as that expression. Words from any stream are such an answer; they
give one expression at most, in however many tries. A seed gives what the words of its stream
give. The names of the variables differ, and each is read as the variable of that name. -/
theorem random_expressions_within_bounds :
    (∀ (σ : Type) (g : Generator σ) (breadth depth : Nat) (s : σ) (e : Expr),
      g.expr? breadth depth s = some e → 0 < breadth ∧ e.Presentable breadth depth) ∧
    (∀ (σ : Type) (draw : σ → UInt64 × σ) (breadth depth : Nat) (s : σ) (e : Expr),
      Drawn draw breadth depth s e →
        e.Presentable breadth depth ∧ ∀ e', Drawn draw breadth depth s e' → e' = e) ∧
    (∀ (breadth depth : Nat) (seed : UInt64) (e : Expr), randomExpr? breadth depth seed = some e →
      e.Presentable breadth depth ∧ Drawn Stream.next breadth depth (.ofSeed seed) e) ∧
    Function.Injective variableName ∧
    ∀ i, Expr.parse (variableName i) = .ok (.var (variableName i)) := by
  have hany : ∀ {σ : Type} {g : Generator σ} {breadth depth : Nat} {s : σ} {e : Expr},
      g.expr? breadth depth s = some e → 0 < breadth ∧ e.Presentable breadth depth := fun h => by
    obtain ⟨hb, s', hnode⟩ := expr?_eq_some_iff.1 h
    exact ⟨hb, (node_within hnode).presentable⟩
  refine ⟨fun σ g breadth depth s e h => hany h, fun σ draw breadth depth s e h => ?_,
    fun breadth depth seed e h => ⟨(hany h).2, patience, h⟩, variableName_injective, fun i => ?_⟩
  · refine ⟨?_, fun e' h' => h'.unique h⟩
    obtain ⟨tries, hexpr⟩ := h
    exact (hany hexpr).2
  · exact Expr.parse_text (e := .var (variableName i)) fun v hv =>
      List.mem_singleton.1 hv ▸ isName_variableName i

/-- Listed choices give an expression over the first and the last of 27 variables, with a negation
and a constant; scripted words give one with an operator alone; and a seed gives some leaf. -/
theorem random_expressions_within_bounds_listed :
    (∃ e : Expr, e.text = "(NOT X26 NAND (1 OR A))" ∧
      listed.expr? 27 2 [0, 0, 3, 0, 1, 0, 26, 0, 0, 1, 1, 1, 0, 0] = some e ∧
        e.Presentable 27 2) ∧
    (∃ e : Expr, e.text = "(A NAND X26)" ∧
      Drawn scripted 27 1 script e ∧ e.Presentable 27 1) ∧
    ∃ e, randomExpr? 1 0 0 = some e ∧ e.Presentable 1 0 := by
  obtain ⟨hany, hwords, hseed, -, -⟩ := random_expressions_within_bounds
  have hlisted : listed.expr? 27 2 [0, 0, 3, 0, 1, 0, 26, 0, 0, 1, 1, 1, 0, 0] =
      some (.binary .nand (.not (.var "X26")) (.binary .or (.const true) (.var "A"))) := rfl
  obtain ⟨e, he⟩ := exists_randomExpr?
  exact ⟨⟨_, rfl, hlisted, (hany _ listed 27 2 _ _ hlisted).2⟩,
    ⟨_, rfl, drawn_script, (hwords _ scripted 27 1 script _ drawn_script).1⟩,
    e, he, (hseed 1 0 0 e he).1⟩

end LogicCircuit
