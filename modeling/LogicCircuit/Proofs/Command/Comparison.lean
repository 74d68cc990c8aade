import LogicCircuit.Command.Run
import LogicCircuit.Proofs.Expr.Rows
import LogicCircuit.Proofs.Table.Differences

/-!
# Comparing expressions on the command line

The library compares two expressions by their packed tables over the variables of both, the
command line by two tables, each over the variables of its own expression. A packed table counts
its masks from the first variable, a table its rows from the last one, so the two list the same
values in another order (`truthColumn_eq_iff_packed`). Hence the answers agree as long as both
expressions have the same variables, which is what the command line asks for first: the main
result is `comparison_of_expressions`. It is not the library's answer where a variable makes no
difference and is in one of the expressions only (`redundant_variable_told_apart`). Of the rules
by which words are sorted two are used: the flag for expressions is one, and a word without a dash
in front is a plain argument (`Command.sortWords_of_plain`).
-/

namespace LogicCircuit

namespace Expr

variable {a b : Expr}

/-- The variables of two expressions that have the same ones are the variables of either. -/
theorem entries_ofList_occurrences (h : a.variableNames = b.variableNames) :
    (Roster.ofList (a.occurrences ++ b.occurrences) : Roster fun v : String => v).entries =
      a.variableNames := by
  refine Roster.eq_of_mem_iff (Roster.increasing _) (Roster.increasing _) fun v => ?_
  have hsame : v ∈ b.occurrences ↔ v ∈ a.occurrences := by
    rw [← mem_variableNames_iff, ← h, mem_variableNames_iff]
  rw [Roster.mem_entries_ofList, List.mem_append, hsame, or_self]
  exact mem_variableNames_iff.symm

/-- Expressions with the same variables are equivalent exactly if their columns are equal. -/
theorem equivalent_iff_truthColumn (h : a.variableNames = b.variableNames) :
    a.equivalent b = true ↔ a.truthColumn a.variableNames = b.truthColumn a.variableNames := by
  unfold equivalent
  rw [decide_eq_true_iff, entries_ofList_occurrences h, truthColumn_eq_iff_packed]

end Expr

namespace TruthTable

/-! ## Tables of expressions -/

/-- The outputs of the table of an expression are its column. -/
theorem map_outputs_ofExpr (e : Expr) (names : List String) :
    (ofExpr e names).rows.map (·.outputs) = (e.truthColumn names).map ([·]) := by
  rw [ofExpr, List.map_map]
  conv_rhs => rw [← List.zipIdx_map_fst 0 (e.truthColumn names), List.map_map]
  rfl

/-- Nothing tells the tables of two expressions over one list of variables apart exactly if their
columns are equal. -/
theorem difference?_ofExpr {a b : Expr} {names : List String} :
    (ofExpr a names).difference? (ofExpr b names) = none ↔
      a.truthColumn names = b.truthColumn names := by
  have hsingle : Function.Injective fun on : Bool => [on] := fun _ _ => List.head_eq_of_cons_eq
  rw [difference?_eq_none_iff, map_outputs_ofExpr, map_outputs_ofExpr,
    (List.map_injective_iff.2 hsingle).eq_iff]
  simp [ofExpr]

end TruthTable

namespace Command

variable {a b : Expr} {s t word : String}

/-! ## What is shown -/

/-- Tables with the same inputs that nothing tells apart are shown to be equivalent. -/
theorem showComparison_of_same {x y : TruthTable} (hinputs : x.inputs = y.inputs)
    (hnone : x.difference? y = none) (printed : String) :
    showComparison printed x y = .success (printed ++ "Circuits are equivalent\n") := by
  simp [showComparison, hinputs, hnone]

/-- Any other tables make the comparison fail. -/
theorem code_showComparison_of_not {x y : TruthTable}
    (h : ¬ (x.inputs = y.inputs ∧ x.difference? y = none)) (printed : String) :
    (showComparison printed x y).code = 1 := by
  unfold showComparison
  split
  · rfl
  · split
    · simp_all
    · rfl

/-- The comparison of two expressions shows that of their tables. -/
theorem run_compare (read : String → Option (List UInt8)) (hs : Expr.parse s = .ok a)
    (ht : Expr.parse t = .ok b) : (Request.compare s t true).run read =
      showComparison "" (.ofExpr a a.variableNames) (.ofExpr b b.variableNames) := by
  simp [Request.run, tableOf, hs, ht]

/-! ## Words of a command line -/

/-- No expression starts with a dash. -/
theorem ne_dash_of_parse (hs : Expr.parse s = .ok a) (cs : List Char) : s.toList ≠ '-' :: cs := by
  intro hdash
  have hstray : Token.ofText s = .error ⟨'-', 0⟩ := by
    rw [Token.ofText, hdash, Token.scan, if_neg (by decide), if_neg (by decide)]
    rfl
  rw [Expr.parse, hstray] at hs
  cases hs

/-- A word that does not start with a dash is sorted as a plain argument. -/
theorem sortWords_of_plain (rule : Rule) (words : List String) (args : Sorted)
    (hword : ∀ cs, word.toList ≠ '-' :: cs) : sortWords rule (word :: words) (.nothing args) =
      (args.addPlain rule word).bind fun args => sortWords rule words (.nothing args) := by
  rw [sortWords]
  split
  case h_1 hlist => exact absurd hlist (hword _)
  case h_2 hlist => exact absurd hlist (hword _)
  case h_3 hlist => exact absurd hlist (hword _)
  case h_4 => rfl

/-- The declaration of the command that compares. -/
def comparisonRule : Rule :=
  ⟨"check-equivalence", some "equiv", [.text, .text], 2, [⟨"expressions", some 'e', none⟩]⟩

/-- The flag for expressions and two words are sorted into just these. -/
theorem sort_comparison (hfirst : ∀ cs, s.toList ≠ '-' :: cs)
    (hsecond : ∀ cs, t.toList ≠ '-' :: cs) :
    sort comparisonRule ["-e", s, t] = .ok ⟨["expressions"], [], [s, t]⟩ := by
  have hflag : sortWords comparisonRule ["-e", s, t] (.nothing .empty) =
      sortWords comparisonRule [s, t] (.nothing ⟨["expressions"], [], []⟩) := by
    rfl
  rw [sort, hflag, sortWords_of_plain _ _ _ hfirst]
  show Except.bind (sortWords comparisonRule [t] (.nothing ⟨["expressions"], [], [s]⟩)) _ = _
  rw [sortWords_of_plain _ _ _ hsecond]
  rfl

/-- The command line asks for a comparison of the two expressions. -/
theorem run_equiv (read : String → Option (List UInt8)) (hs : Expr.parse s = .ok a)
    (ht : Expr.parse t = .ok b) :
    run read ["equiv", "-e", s, t] = (Request.compare s t true).run read := by
  have hrequest : Request.ofArguments? ["equiv", "-e", s, t] = some (.compare s t true) := by
    have hrule : Request.rule? "equiv" = some comparisonRule := by decide +kernel
    have hoption : looksLikeOption "equiv" = false := by decide +kernel
    have hsort := sort_comparison (ne_dash_of_parse hs) (ne_dash_of_parse ht)
    unfold Request.ofArguments?
    simp only [hoption, hrule, Request.ofCommand?, hsort]
    rfl
  rw [run, hrequest]

/-- When the command line compares two expressions, it says that they are equivalent, and
succeeds, exactly if they have the same variables and the library finds them equivalent; otherwise
it fails. The words of the command line are read as this comparison. -/
theorem comparison_of_expressions (read : String → Option (List UInt8))
    (hs : Expr.parse s = .ok a) (ht : Expr.parse t = .ok b) :
    let outcome := (Request.compare s t true).run read
    let same := a.variableNames = b.variableNames ∧ Expr.textsEquivalent s t = .ok true
    (outcome = .success "Circuits are equivalent\n" ↔ same) ∧
    (outcome.code = 0 ↔ same) ∧ (outcome.code = 1 ↔ ¬ same) ∧
    run read ["equiv", "-e", s, t] = outcome := by
  intro outcome same
  have hlibrary : Expr.textsEquivalent s t = .ok true ↔ a.equivalent b = true := by
    rw [Expr.textsEquivalent, hs, ht, Except.ok.injEq]
  have htables : same ↔ a.variableNames = b.variableNames ∧
      (TruthTable.ofExpr a a.variableNames).difference? (.ofExpr b b.variableNames) = none := by
    refine and_congr_right fun hnames => ?_
    rw [hlibrary, Expr.equivalent_iff_truthColumn hnames, ← hnames, TruthTable.difference?_ofExpr]
  have hsuccess : same → outcome = .success "Circuits are equivalent\n" := fun h => by
    obtain ⟨hnames, hnone⟩ := htables.1 h
    exact (run_compare read hs ht).trans (showComparison_of_same hnames hnone "")
  have hfailure : ¬ same → outcome.code = 1 := fun h => by
    rw [htables] at h
    exact (congrArg Outcome.code (run_compare read hs ht)).trans (code_showComparison_of_not h "")
  have hzero : same → outcome.code = 0 := fun h => by rw [hsuccess h]; rfl
  refine ⟨⟨fun h => ?_, hsuccess⟩, ⟨fun h => ?_, hzero⟩, ⟨fun h hsame => ?_, hfailure⟩,
    run_equiv read hs ht⟩
  · by_contra hnot
    exact absurd ((congrArg Outcome.code h).symm.trans (hfailure hnot)) (by decide)
  · by_contra hnot
    exact absurd (h.symm.trans (hfailure hnot)) (by decide)
  · exact absurd ((hzero hsame).symm.trans h) (by decide)

/-- Two ways to write a NAND are equivalent on the command line. -/
theorem comparison_of_expressions_nand :
    Expr.parse "A NAND B" = .ok (.binary .nand (.var "A") (.var "B")) ∧
    Expr.parse "!(b * a)" = .ok (.not (.binary .and (.var "B") (.var "A"))) ∧
    run (fun _ => none) ["equiv", "-e", "A NAND B", "!(b * a)"] =
      .success "Circuits are equivalent\n" := by
  have hfirst : Expr.parse "A NAND B" = .ok (.binary .nand (.var "A") (.var "B")) := by
    decide +kernel
  have hsecond : Expr.parse "!(b * a)" = .ok (.not (.binary .and (.var "B") (.var "A"))) := by
    decide +kernel
  obtain ⟨hsuccess, -, -, hrun⟩ := comparison_of_expressions (fun _ => none) hfirst hsecond
  exact ⟨hfirst, hsecond, hrun.trans (hsuccess.2 ⟨by decide +kernel, by decide +kernel⟩)⟩

/-- A variable that makes no difference is missing in the second expression. The library finds the
two equivalent, the command line tells them apart by their variables. -/
theorem redundant_variable_told_apart :
    Expr.textsEquivalent "A OR (B AND NOT B)" "A" = .ok true ∧
    (Request.compare "A OR (B AND NOT B)" "A" true).run (fun _ => none) =
      ⟨"Different inputs: A, B vs A. Circuits are not equivalent\n", 1, none, none⟩ ∧
    ¬ ((Request.compare "A OR (B AND NOT B)" "A" true).run (fun _ => none) =
        .success "Circuits are equivalent\n" ↔
      Expr.textsEquivalent "A OR (B AND NOT B)" "A" = .ok true) := by
  have hlibrary : Expr.textsEquivalent "A OR (B AND NOT B)" "A" = .ok true := by decide +kernel
  have houtcome : (Request.compare "A OR (B AND NOT B)" "A" true).run (fun _ => none) =
      ⟨"Different inputs: A, B vs A. Circuits are not equivalent\n", 1, none, none⟩ := by
    decide +kernel
  refine ⟨hlibrary, houtcome, fun h => ?_⟩
  exact absurd (congrArg Outcome.code (houtcome.symm.trans (h.2 hlibrary))) (by decide)

end Command

end LogicCircuit
