import LogicCircuit.Netlist.Reader
import LogicCircuit.Netlist.Writer
import LogicCircuit.Proofs.Netlist.Resolving
import Mathlib.Data.List.TakeWhile

/-!
# The lines of a netlist

What lines say does not depend on where they stand, so texts are read piece by piece: `Says` is
kept by putting lines together (`Says.append`). A line that consists of tokens between marks has
these tokens as its parts (`parts_token`), whatever tokens they are. With that the three kinds of
lines, declarations, constants and operations, are read back. A text of the lines of a netlist is
read as this netlist: `Spelled.read_text`.
-/

namespace LogicCircuit

namespace Text

/-- Blanks around a text without blanks at its ends are cut off. -/
theorem trim_between {before s after : List Char} (hbefore : ∀ c ∈ before, isBlank c = true)
    (hafter : ∀ c ∈ after, isBlank c = true) (hhead : ∀ c ∈ s.head?, isBlank c = false)
    (hlast : ∀ c ∈ s.getLast?, isBlank c = false) (hs : s ≠ []) :
    trim (before ++ s ++ after) = s := by
  have hkeeps : ∀ {t u : List Char}, t ≠ [] → (∀ c ∈ t.head?, isBlank c = false) →
      (t ++ u).dropWhile isBlank = t ++ u := by
    intro t u ht hfirst
    obtain ⟨c, t, rfl⟩ := List.exists_cons_of_ne_nil ht
    have hc := hfirst c rfl
    exact List.dropWhile_cons_of_neg (by simp [hc])
  rw [trim, List.append_assoc, List.dropWhile_append_of_pos hbefore, hkeeps hs hhead,
    List.reverse_append,
    List.dropWhile_append_of_pos fun c hc => hafter c (List.mem_reverse.1 hc)]
  have hfirst : ∀ c ∈ s.reverse.head?, isBlank c = false := by rwa [List.head?_reverse]
  have hback := hkeeps (u := []) (List.reverse_ne_nil_iff.2 hs) hfirst
  rw [List.append_nil] at hback
  rw [hback, List.reverse_reverse]

/-- There are no characters in the empty text. -/
theorem isBlank_of_mem_nil : ∀ c ∈ ([] : List Char), isBlank c = true := fun _ hc => nomatch hc

theorem isBlank_of_mem_space : ∀ c ∈ [' '], isBlank c = true := fun c hc => by
  obtain rfl := List.mem_singleton.1 hc
  rfl

/-- Lines that each end in a separator are the pieces of the text. -/
theorem pieces_flatMap {α : Type} {separates : α → Bool} {mark : α} (hmark : separates mark)
    {lines : List (List α)} (hlines : ∀ line ∈ lines, ∀ x ∈ line, separates x = false) :
    pieces separates (lines.flatMap (· ++ [mark])) = lines ++ [[]] := by
  induction lines with
  | nil => rfl
  | cons line lines ih =>
      obtain ⟨hline, hlines⟩ := List.forall_mem_cons.1 hlines
      rw [List.flatMap_cons, List.append_assoc, List.singleton_append,
        pieces_append_cons hline hmark, ih hlines, List.cons_append]

end Text

namespace Netlist

open NetlistLine (parts)

/-! ## Tokens and their lines -/

/-- A token can stand in a line: it is not empty, and none of its characters ends it. -/
def IsToken (s : String) : Prop := s ≠ "" ∧ ∀ c ∈ s.toList, breaksName c = false

instance (s : String) : Decidable (IsToken s) :=
  decidable_of_iff (s ≠ "" ∧ s.toList.all fun c => !breaksName c) (by simp [IsToken])

variable {s t name word op : String} {args names : List String}
  {marks before after : List Char} {lines lines' : List (List Char)} {n m : Netlist}

/-- The words of the format are tokens. -/
theorem isToken_of_mem_words :
    ∀ s ∈ ["INPUT", "OUTPUT", "BUF", "vdd", "gnd"] ++ Gate.all.map (·.name), IsToken s := by
  decide +kernel

theorem isToken_gate (g : Gate) : IsToken g.name :=
  isToken_of_mem_words _ (List.mem_append_right _ (List.mem_map_of_mem (by cases g <;> decide)))

theorem isToken_constant (on : Bool) : IsToken (if on then "vdd" else "gnd") :=
  isToken_of_mem_words _ (by cases on <;> simp)

theorem IsToken.toList_ne_nil (hs : IsToken s) : s.toList ≠ [] := fun h =>
  hs.1 (String.toList_eq_nil_iff.1 h)

theorem IsToken.not_isBlank (hs : IsToken s) {c : Char} (hc : c ∈ s.toList) :
    Text.isBlank c = false := by
  have hbreaks := hs.2 c hc
  rw [breaksName, Bool.or_eq_false_iff] at hbreaks
  exact hbreaks.1

/-- A token has none of the characters that end it. -/
theorem IsToken.not_mem (hs : IsToken s) {c : Char} (hc : breaksName c = true) : c ∉ s.toList :=
  fun hmem => by rw [hs.2 c hmem] at hc; cases hc

/-- Blanks around a token are cut off. -/
theorem IsToken.trim_eq (hs : IsToken s) (hbefore : ∀ c ∈ before, Text.isBlank c = true)
    (hafter : ∀ c ∈ after, Text.isBlank c = true) :
    Text.trim (before ++ s.toList ++ after) = s.toList :=
  Text.trim_between hbefore hafter (fun _ hc => hs.not_isBlank (List.mem_of_mem_head? hc))
    (fun _ hc => hs.not_isBlank (List.mem_of_mem_getLast? hc)) hs.toList_ne_nil

/-- A line without characters has no parts. -/
theorem parts_nil (marks : List Char) : parts marks [] = [] := rfl

/-- Blanks are no marks. -/
theorem plain_of_blank (hmarks : ∀ c ∈ marks, breaksName c = true ∧ Text.isBlank c = false)
    (hbefore : ∀ c ∈ before, Text.isBlank c = true) :
    ∀ c ∈ before, decide (c ∈ marks) = false := fun c hc => decide_eq_false fun hmark => by
  have hnot := (hmarks c hmark).2
  rw [hbefore c hc] at hnot
  cases hnot

/-- No character of a token is a mark. -/
theorem IsToken.plain (hs : IsToken s)
    (hmarks : ∀ c ∈ marks, breaksName c = true ∧ Text.isBlank c = false) :
    ∀ c ∈ s.toList, decide (c ∈ marks) = false :=
  fun c hc => decide_eq_false fun hmark => hs.not_mem (hmarks c hmark).1 hc

/-- A token between blanks in front of a mark is a part. -/
theorem parts_token {c : Char}
    (hmarks : ∀ c ∈ marks, breaksName c = true ∧ Text.isBlank c = false)
    (hs : IsToken s) (hbefore : ∀ c ∈ before, Text.isBlank c = true)
    (hafter : ∀ c ∈ after, Text.isBlank c = true) (hc : c ∈ marks) (rest : List Char) :
    parts marks (before ++ s.toList ++ after ++ c :: rest) = s :: parts marks rest := by
  have hplain : ∀ x ∈ before ++ s.toList ++ after, decide (x ∈ marks) = false :=
    List.forall_mem_append.2 ⟨List.forall_mem_append.2 ⟨plain_of_blank hmarks hbefore,
      hs.plain hmarks⟩, plain_of_blank hmarks hafter⟩
  have hne : s.toList.isEmpty = false := by simpa using hs.1
  rw [parts, Text.pieces_append_cons hplain (by simpa using hc)]
  simp only [List.map_cons, hs.trim_eq hbefore hafter, List.filter_cons, hne, Bool.not_false,
    if_true, String.ofList_toList]
  rfl

/-- A token between blanks at the end of a line is a part. -/
theorem parts_last (hmarks : ∀ c ∈ marks, breaksName c = true ∧ Text.isBlank c = false)
    (hs : IsToken s) (hbefore : ∀ c ∈ before, Text.isBlank c = true) :
    parts marks (before ++ s.toList) = [s] := by
  have hplain : ∀ x ∈ before ++ s.toList, decide (x ∈ marks) = false :=
    List.forall_mem_append.2 ⟨plain_of_blank hmarks hbefore, hs.plain hmarks⟩
  have hne : s.toList.isEmpty = false := by simpa using hs.1
  have htrim : Text.trim (before ++ s.toList) = s.toList := by
    simpa using hs.trim_eq hbefore Text.isBlank_of_mem_nil
  rw [parts, Text.pieces_eq_singleton hplain]
  simp only [List.map_cons, List.map_nil, htrim, List.filter_cons, hne, Bool.not_false, if_true,
    List.filter_nil, String.ofList_toList]

/-- The line of a declaration. -/
def declarationLine (word name : String) : List Char :=
  word.toList ++ '(' :: (name.toList ++ [')'])

/-- The line of a constant. -/
def constantLine (name op : String) : List Char := name.toList ++ " = ".toList ++ op.toList

/-- The line of an operation. -/
def operationLine (name op : String) (args : List String) : List Char :=
  name.toList ++ " = ".toList ++ op.toList ++ '(' :: ((", ".intercalate args).toList ++ [')'])

/-- The marks of statements end tokens. -/
theorem statementMarks :
    ∀ c ∈ ['=', '(', ',', ')'], breaksName c = true ∧ Text.isBlank c = false := by
  intro c hc
  simp only [List.mem_cons, List.not_mem_nil, or_false] at hc
  rcases hc with rfl | rfl | rfl | rfl <;> exact ⟨rfl, rfl⟩

theorem parts_declarationLine (hword : IsToken word) (hname : IsToken name) :
    parts ['(', ')'] (declarationLine word name) = [word, name] := by
  have hmarks : ∀ c ∈ ['(', ')'], breaksName c = true ∧ Text.isBlank c = false :=
    fun c hc => statementMarks c (by simp only [List.mem_cons] at hc ⊢; tauto)
  have hfirst := parts_token hmarks hword Text.isBlank_of_mem_nil Text.isBlank_of_mem_nil
    (List.mem_cons_self (a := '(')) (name.toList ++ [')'])
  have hsecond := parts_token hmarks hname Text.isBlank_of_mem_nil Text.isBlank_of_mem_nil
    (List.mem_cons_of_mem _ (List.mem_cons_self (a := ')'))) []
  simp only [List.nil_append, List.append_nil] at hfirst hsecond
  rw [declarationLine, hfirst, hsecond, parts_nil]

/-- The arguments up to the closing parenthesis are the parts. -/
theorem parts_arguments (hargs : ∀ arg ∈ args, IsToken arg)
    (hbefore : ∀ c ∈ before, Text.isBlank c = true) :
    parts ['=', '(', ',', ')'] (before ++ ((", ".intercalate args).toList ++ [')'])) = args := by
  have hclose : (')' : Char) ∈ ['=', '(', ',', ')'] := by decide
  have hcomma : (',' : Char) ∈ ['=', '(', ',', ')'] := by decide
  induction args generalizing before with
  | nil =>
      have htrim : Text.trim before = [] := by
        rw [Text.trim, List.dropWhile_eq_nil_iff.2 hbefore]
        rfl
      show parts _ (before ++ [')']) = []
      rw [parts, Text.pieces_append_cons (plain_of_blank statementMarks hbefore) (by simp)]
      simp only [List.map_cons, htrim]
      rfl
  | cons arg args ih =>
      obtain ⟨harg, hargs⟩ := List.forall_mem_cons.1 hargs
      cases args with
      | nil =>
          have hlast :=
            parts_token statementMarks harg hbefore Text.isBlank_of_mem_nil hclose []
          rw [List.append_nil, parts_nil] at hlast
          simpa using hlast
      | cons arg' args =>
          have hnext := ih hargs Text.isBlank_of_mem_space
          have hfirst := parts_token statementMarks harg hbefore Text.isBlank_of_mem_nil hcomma
            ([' '] ++ ((", ".intercalate (arg' :: args)).toList ++ [')']))
          have htext : (", ".intercalate (arg :: arg' :: args)).toList =
              arg.toList ++ ',' :: ' ' :: (", ".intercalate (arg' :: args)).toList := by
            simp [String.toList_intercalate]
          rw [hnext, List.append_nil] at hfirst
          rw [htext, List.append_assoc, List.cons_append, List.cons_append, ← List.append_assoc]
          exact hfirst

theorem parts_constantLine (hname : IsToken name) (hop : IsToken op) :
    parts ['=', '(', ',', ')'] (constantLine name op) = [name, op] := by
  have hfirst :=
    parts_token statementMarks hname Text.isBlank_of_mem_nil Text.isBlank_of_mem_space
      (List.mem_cons_self (a := '=')) ([' '] ++ op.toList)
  rw [parts_last statementMarks hop Text.isBlank_of_mem_space] at hfirst
  rw [← hfirst]
  simp [constantLine]

theorem parts_operationLine (hname : IsToken name) (hop : IsToken op)
    (hargs : ∀ arg ∈ args, IsToken arg) :
    parts ['=', '(', ',', ')'] (operationLine name op args) = name :: op :: args := by
  have hthird := parts_arguments hargs Text.isBlank_of_mem_nil
  have hsecond :=
    parts_token statementMarks hop Text.isBlank_of_mem_space Text.isBlank_of_mem_nil (c := '(')
      (by decide) ([] ++ ((", ".intercalate args).toList ++ [')']))
  rw [hthird] at hsecond
  have hfirst :=
    parts_token statementMarks hname Text.isBlank_of_mem_nil Text.isBlank_of_mem_space
      (List.mem_cons_self (a := '='))
      ([' '] ++ op.toList ++ [] ++ '(' :: ([] ++ ((", ".intercalate args).toList ++ [')'])))
  rw [hsecond] at hfirst
  rw [← hfirst]
  simp [operationLine]

/-! ## What lines say -/

instance : Append Netlist :=
  ⟨fun n m => ⟨n.inputs ++ m.inputs, n.outputs ++ m.outputs, n.signals ++ m.signals⟩⟩

/-- Some lines say a netlist, wherever they stand. -/
def Says (lines : List (List Char)) (n : Netlist) : Prop :=
  ∀ number, ∃ items, NetlistLine.ofLines number lines = .ok items ∧
    (NetlistText.ofLines items).inputs = n.inputs ∧
    (NetlistText.ofLines items).outputs = n.outputs ∧
    (NetlistText.ofLines items).statements.mapM Statement.signal = .ok n.signals

/-- Lines are read one after another. -/
theorem ofLines_append {number : Nat} {items items' : List NetlistLine}
    (h : NetlistLine.ofLines number lines = .ok items)
    (h' : NetlistLine.ofLines (number + lines.length) lines' = .ok items') :
    NetlistLine.ofLines number (lines ++ lines') = .ok (items ++ items') := by
  induction lines generalizing number items with
  | nil =>
      obtain rfl := Except.ok.inj h
      exact h'
  | cons line lines ih =>
      rw [List.cons_append]
      unfold NetlistLine.ofLines at h ⊢
      cases hfirst : NetlistLine.ofChars? number line with
      | error e => rw [hfirst] at h; cases h
      | ok item =>
          cases hrest : NetlistLine.ofLines (number + 1) lines with
          | error e => rw [hfirst, hrest] at h; cases h
          | ok items₁ =>
              rw [hfirst, hrest] at h
              obtain rfl := Except.ok.inj h
              have hlength : number + (line :: lines).length = number + 1 + lines.length := by
                rw [List.length_cons]
                omega
              rw [hlength] at h'
              rw [ih hrest h', List.append_assoc]
              rfl

theorem Says.append (h : Says lines n) (h' : Says lines' m) :
    Says (lines ++ lines') (n ++ m) := by
  intro number
  obtain ⟨items, hitems, hinputs, houtputs, hsignals⟩ := h number
  obtain ⟨items', hitems', hinputs', houtputs', hsignals'⟩ := h' (number + lines.length)
  refine ⟨items ++ items', ofLines_append hitems hitems', ?_, ?_, ?_⟩
  · exact List.filterMap_append.trans (congrArg₂ (· ++ ·) hinputs hinputs')
  · exact List.filterMap_append.trans (congrArg₂ (· ++ ·) houtputs houtputs')
  · have hstatements : (NetlistText.ofLines (items ++ items')).statements =
        (NetlistText.ofLines items).statements ++ (NetlistText.ofLines items').statements :=
      List.filterMap_append
    rw [hstatements, List.mapM_append, hsignals, hsignals']
    rfl

theorem says_nil : Says [] ⟨[], [], []⟩ := fun _ => ⟨[], rfl, rfl, rfl, rfl⟩

/-- A line that is read as nothing says nothing. -/
theorem says_nothing {line : List Char}
    (h : ∀ number, NetlistLine.ofChars? number line = .ok none) : Says [line] ⟨[], [], []⟩ := by
  intro number
  refine ⟨[], ?_, rfl, rfl, rfl⟩
  rw [NetlistLine.ofLines, h]
  rfl

/-- A line that starts with a token and ends in no blank is a statement if it has an equals sign.
-/
theorem ofChars?_of_token {rest : List Char} (hs : IsToken s)
    (hlast : ∀ c ∈ (s.toList ++ rest).getLast?, Text.isBlank c = false) (number : Nat) :
    NetlistLine.ofChars? number (s.toList ++ rest) =
      if '=' ∈ s.toList ++ rest then
        (NetlistLine.statementOf number (s.toList ++ rest)).map some
      else (NetlistLine.declaration number (s.toList ++ rest)).map some := by
  obtain ⟨c, cs, hcs⟩ := List.exists_cons_of_ne_nil hs.toList_ne_nil
  have hc : c ∈ s.toList := hcs ▸ List.mem_cons_self
  have hsharp : c ≠ '#' := fun h => hs.not_mem rfl (h ▸ hc)
  have hhead : ∀ c ∈ (s.toList ++ rest).head?, Text.isBlank c = false := by
    intro x hx
    rw [hcs] at hx
    exact Option.some.inj hx ▸ hs.not_isBlank hc
  have htrim :=
    Text.trim_between Text.isBlank_of_mem_nil Text.isBlank_of_mem_nil hhead hlast (by simp [hcs])
  rw [List.nil_append, List.append_nil] at htrim
  rw [NetlistLine.ofChars?, htrim, hcs]
  exact if_neg (by simp [hsharp])

/-- A line that ends in a parenthesis ends in no blank. -/
theorem not_isBlank_of_close {line t : List Char} (h : line = t ++ [')']) :
    ∀ c ∈ line.getLast?, Text.isBlank c = false := by
  intro c hc
  rw [h, List.getLast?_concat] at hc
  obtain rfl := Option.some.inj hc
  rfl

/-- The line of a declaration is read back. -/
theorem ofChars?_declarationLine (hword : IsToken word) (hname : IsToken name)
    {item : NetlistLine}
    (hitem : ∀ number, NetlistLine.declaration number (declarationLine word name) = .ok item)
    (number : Nat) :
    NetlistLine.ofChars? number (declarationLine word name) = .ok (some item) := by
  have hlast : ∀ c ∈ (declarationLine word name).getLast?, Text.isBlank c = false :=
    not_isBlank_of_close (t := word.toList ++ '(' :: name.toList) (by simp [declarationLine])
  have hmark : '=' ∉ declarationLine word name := by
    have hequals : breaksName '=' = true := rfl
    simp [declarationLine, hword.not_mem hequals, hname.not_mem hequals]
  refine (ofChars?_of_token hword hlast number).trans ((if_neg hmark).trans ?_)
  exact congrArg (Except.map some) (hitem number)

theorem says_input (hname : IsToken name) :
    Says [declarationLine "INPUT" name] ⟨[name], [], []⟩ := by
  have hword : IsToken "INPUT" := isToken_of_mem_words _ (by simp)
  have hitem : ∀ number, NetlistLine.declaration number (declarationLine "INPUT" name) =
      .ok (.input name) := fun number => by
    rw [NetlistLine.declaration, parts_declarationLine hword hname]
    rfl
  refine fun number => ⟨[.input name], ?_, rfl, rfl, rfl⟩
  rw [NetlistLine.ofLines, ofChars?_declarationLine hword hname hitem]
  rfl

theorem says_output (hname : IsToken name) :
    Says [declarationLine "OUTPUT" name] ⟨[], [name], []⟩ := by
  have hword : IsToken "OUTPUT" := isToken_of_mem_words _ (by simp)
  have hitem : ∀ number, NetlistLine.declaration number (declarationLine "OUTPUT" name) =
      .ok (.output name) := fun number => by
    rw [NetlistLine.declaration, parts_declarationLine hword hname]
    rfl
  refine fun number => ⟨[.output name], ?_, rfl, rfl, rfl⟩
  rw [NetlistLine.ofLines, ofChars?_declarationLine hword hname hitem]
  rfl

/-- A line with a name, an operation and its arguments as parts says the signal. -/
theorem says_statement (hname : IsToken name) {line : List Char} {operation : Operation}
    (hline : ∃ rest, line = name.toList ++ rest) (hmark : '=' ∈ line)
    (hlast : ∀ c ∈ line.getLast?, Text.isBlank c = false)
    (hparts : parts ['=', '(', ',', ')'] line = name :: op :: args)
    (hop : Operation.ofName? (Text.allCapitals op) = some operation)
    (hargs : args.length = operation.arity) :
    Says [line] ⟨[], [], [⟨name, operation, args⟩]⟩ := by
  obtain ⟨rest, rfl⟩ := hline
  intro number
  refine ⟨[.statement ⟨number, name, op, args⟩], ?_, rfl, rfl, ?_⟩
  · rw [NetlistLine.ofLines, ofChars?_of_token hname hlast, if_pos hmark, NetlistLine.statementOf,
      hparts]
    rfl
  · have hsignal : Statement.signal ⟨number, name, op, args⟩ = .ok ⟨name, operation, args⟩ := by
      simp only [Statement.signal, hop, hargs, if_true]
    show [_].mapM Statement.signal = _
    rw [List.mapM_cons, hsignal]
    rfl

/-- The line of a constant says it. -/
theorem says_constant (hname : IsToken name) (on : Bool) :
    Says [constantLine name (if on then "vdd" else "gnd")]
      ⟨[], [], [⟨name, .constant on, []⟩]⟩ := by
  have hop := isToken_constant on
  refine says_statement hname ⟨_, List.append_assoc _ _ _⟩ (by simp [constantLine])
    (fun c hc => ?_) (parts_constantLine hname hop) (by cases on <;> rfl) rfl
  refine hop.not_isBlank (List.mem_of_mem_getLast? ?_)
  rwa [constantLine, List.getLast?_append_of_ne_nil _ hop.toList_ne_nil] at hc

/-- The line of an operation says it. -/
theorem says_operation (hname : IsToken name) (hop : IsToken op)
    (hargs : ∀ arg ∈ args, IsToken arg) {operation : Operation}
    (hoperation : Operation.ofName? (Text.allCapitals op) = some operation)
    (hlength : args.length = operation.arity) :
    Says [operationLine name op args] ⟨[], [], [⟨name, operation, args⟩]⟩ := by
  have hname' : ∃ rest, operationLine name op args = name.toList ++ rest :=
    ⟨" = ".toList ++ (op.toList ++ '(' :: ((", ".intercalate args).toList ++ [')'])), by
      simp [operationLine]⟩
  have hclose : operationLine name op args = (name.toList ++ " = ".toList ++ op.toList ++
      '(' :: (", ".intercalate args).toList) ++ [')'] := by simp [operationLine]
  exact says_statement hname hname' (by simp [operationLine]) (not_isBlank_of_close hclose)
    (parts_operationLine hname hop hargs) hoperation hlength

/-! ## The lines of a netlist -/

/-- The line of a signal. -/
def signalLine (s : Signal) : List Char :=
  match s.operation with
  | .gate g => operationLine s.name g.name s.args
  | .buffer => operationLine s.name "BUF" s.args
  | .constant on => constantLine s.name (if on then "vdd" else "gnd")

/-- The lines of a netlist. -/
def textLines (n : Netlist) : List (List Char) :=
  ["# .bench (ISCAS) file".toList, "# Generated by boolsim".toList] ++
    n.inputs.map (declarationLine "INPUT") ++ [[]] ++
    n.outputs.map (declarationLine "OUTPUT") ++ [[]] ++ n.signals.map signalLine

/-- The line of a signal says it. -/
theorem says_signalLine {s : Signal} (hname : IsToken s.name)
    (hargs : ∀ arg ∈ s.args, IsToken arg)
    (hlength : s.args.length = s.operation.arity) : Says [signalLine s] ⟨[], [], [s]⟩ := by
  obtain ⟨name, operation, args⟩ := s
  cases operation with
  | gate g =>
      have hop : Operation.ofName? (Text.allCapitals g.name) = some (.gate g) := by
        cases g <;> rfl
      exact says_operation hname (isToken_gate g) hargs hop hlength
  | buffer =>
      exact says_operation hname (isToken_of_mem_words _ (by simp)) hargs rfl hlength
  | constant on =>
      obtain rfl : args = [] := List.length_eq_zero_iff.1 hlength
      exact says_constant hname on

theorem says_inputs (h : ∀ name ∈ names, IsToken name) :
    Says (names.map (declarationLine "INPUT")) ⟨names, [], []⟩ := by
  induction names with
  | nil => exact says_nil
  | cons name names ih =>
      obtain ⟨hname, hnames⟩ := List.forall_mem_cons.1 h
      exact (says_input hname).append (ih hnames)

theorem says_outputs (h : ∀ name ∈ names, IsToken name) :
    Says (names.map (declarationLine "OUTPUT")) ⟨[], names, []⟩ := by
  induction names with
  | nil => exact says_nil
  | cons name names ih =>
      obtain ⟨hname, hnames⟩ := List.forall_mem_cons.1 h
      exact (says_output hname).append (ih hnames)

theorem says_signals {signals : List Signal}
    (h : ∀ s ∈ signals, Says [signalLine s] ⟨[], [], [s]⟩) :
    Says (signals.map signalLine) ⟨[], [], signals⟩ := by
  induction signals with
  | nil => exact says_nil
  | cons s signals ih =>
      obtain ⟨hs, hsignals⟩ := List.forall_mem_cons.1 h
      exact hs.append (ih hsignals)

/-- All names in a netlist can stand in a line, and each signal has as many arguments as its
operation needs. -/
structure Spelled (n : Netlist) : Prop where
  driven : ∀ name ∈ n.driven, IsToken name
  outputs : ∀ name ∈ n.outputs, IsToken name
  args : ∀ s ∈ n.signals, ∀ arg ∈ s.args, IsToken arg
  arity : ∀ s ∈ n.signals, s.args.length = s.operation.arity

theorem Spelled.isToken_name (hn : n.Spelled) {s : Signal} (hs : s ∈ n.signals) :
    IsToken s.name :=
  hn.driven _ (List.mem_append_right _ (List.mem_map_of_mem hs))

/-- The lines of a netlist say it. -/
theorem Spelled.says_textLines (hn : n.Spelled) : Says n.textLines n := by
  have hcomment : ∀ line ∈ ["# .bench (ISCAS) file".toList, "# Generated by boolsim".toList, []],
      Says [line] ⟨[], [], []⟩ := by
    intro line hline
    refine says_nothing fun number => if_pos ?_
    revert line
    decide +kernel
  have hfirst : Says ["# .bench (ISCAS) file".toList, "# Generated by boolsim".toList]
      (⟨[], [], []⟩ ++ ⟨[], [], []⟩) :=
    (hcomment _ (by simp)).append (hcomment _ (by simp))
  have hblank := hcomment [] (by simp)
  have hinputs := says_inputs fun name hname => hn.driven name (List.mem_append_left _ hname)
  have hsignals := says_signals fun s hs =>
    says_signalLine (hn.isToken_name hs) (hn.args s hs) (hn.arity s hs)
  have hall := ((((hfirst.append hinputs).append hblank).append (says_outputs hn.outputs)).append
    hblank).append hsignals
  have hsum : ((((⟨[], [], []⟩ ++ ⟨[], [], []⟩) ++ ⟨n.inputs, [], []⟩) ++ ⟨[], [], []⟩) ++
      ⟨[], n.outputs, []⟩) ++ ⟨[], [], []⟩ ++ ⟨[], [], n.signals⟩ = n := by
    show (⟨[] ++ [] ++ n.inputs ++ [] ++ [] ++ [] ++ [],
      [] ++ [] ++ [] ++ [] ++ n.outputs ++ [] ++ [], n.signals⟩ : Netlist) = n
    simp only [List.nil_append, List.append_nil]
  rw [hsum] at hall
  exact hall

theorem IsToken.newline_not_mem (hs : IsToken s) : '\n' ∉ s.toList :=
  hs.not_mem rfl

theorem newline_not_mem_declarationLine (hword : IsToken word) (hname : IsToken name) :
    '\n' ∉ declarationLine word name := by
  simp [declarationLine, hword.newline_not_mem, hname.newline_not_mem]

theorem newline_not_mem_arguments (hargs : ∀ arg ∈ args, IsToken arg) :
    '\n' ∉ (", ".intercalate args).toList := by
  rw [String.toList_intercalate]
  induction args with
  | nil => simp
  | cons arg args ih =>
      obtain ⟨harg, hargs⟩ := List.forall_mem_cons.1 hargs
      cases args with
      | nil => simpa using harg.newline_not_mem
      | cons arg' args =>
          have hrest := ih hargs
          simp only [List.map_cons, List.intercalate_cons_cons, List.mem_append, not_or]
            at hrest ⊢
          exact ⟨⟨harg.newline_not_mem, by decide⟩, hrest⟩

theorem Spelled.newline_not_mem_signalLine (hn : n.Spelled) {s : Signal} (hs : s ∈ n.signals) :
    '\n' ∉ signalLine s := by
  have hname := (hn.isToken_name hs).newline_not_mem
  have hargs := newline_not_mem_arguments (hn.args s hs)
  unfold signalLine
  split
  case h_1 g _ => cases g <;> simpa [operationLine, hname, Gate.name] using hargs
  case h_2 => simpa [operationLine, hname] using hargs
  case h_3 on _ => cases on <;> simp [constantLine, hname]

/-- No line of a netlist is broken. -/
theorem Spelled.newline_not_mem_textLines (hn : n.Spelled) :
    ∀ line ∈ n.textLines, '\n' ∉ line := by
  intro line hline
  simp only [textLines, List.mem_append, List.mem_map, List.mem_cons, List.not_mem_nil,
    or_false] at hline
  rcases hline with (((((rfl | rfl) | ⟨name, hname, rfl⟩) | rfl) | ⟨name, hname, rfl⟩) | rfl) |
    ⟨s, hs, rfl⟩
  · decide
  · decide
  · exact newline_not_mem_declarationLine (isToken_of_mem_words _ (by simp))
      (hn.driven _ (List.mem_append_left _ hname))
  · exact List.not_mem_nil
  · exact newline_not_mem_declarationLine (isToken_of_mem_words _ (by simp)) (hn.outputs _ hname)
  · exact List.not_mem_nil
  · exact hn.newline_not_mem_signalLine hs

/-! ## Texts -/

/-- No name is repeated exactly if they are all different and none was seen before. -/
theorem repeated?_eq_none_iff {seen : List String} :
    repeated? seen names = none ↔ names.Nodup ∧ ∀ name ∈ names, name ∉ seen := by
  induction names generalizing seen with
  | nil => simp [repeated?]
  | cons name names ih =>
      unfold repeated?
      split
      case isTrue hseen => simp [hseen]
      case isFalse hseen =>
        rw [ih, List.nodup_cons, List.forall_mem_cons]
        simp only [List.mem_cons, not_or]
        grind

/-- The bytes of a text. -/
theorem toList_loop (bytes : ByteArray) (i : Nat) (r : List UInt8) :
    ByteArray.toList.loop bytes i r = r.reverse ++ bytes.data.toList.drop i := by
  unfold ByteArray.toList.loop
  split
  case isTrue hi =>
    have hlt : i < bytes.data.toList.length := hi
    rw [toList_loop bytes (i + 1), List.drop_eq_getElem_cons hlt, List.reverse_cons,
      List.append_assoc, List.singleton_append]
    have hget : bytes.get! i = bytes.data.toList[i] := getElem!_pos bytes.data i hi
    rw [hget]
  case isFalse hi =>
    rw [List.drop_of_length_le (Nat.not_lt.1 hi), List.append_nil]
termination_by bytes.size - i

/-- The bytes of a text are read as this text. -/
theorem decode?_toUTF8 (text : String) : NetlistText.decode? text.toUTF8.toList = some text := by
  have hbytes : (⟨text.toUTF8.toList.toArray⟩ : ByteArray) = text.toUTF8 := by
    rw [ByteArray.toList, toList_loop]
    rfl
  rw [NetlistText.decode?, hbytes, String.fromUTF8?]
  exact dif_pos text.isValidUTF8

theorem ofBytes_toUTF8 (text : String) :
    NetlistText.ofBytes text.toUTF8.toList = NetlistText.ofString text := by
  rw [NetlistText.ofBytes, decode?_toUTF8]

/-- A text of the lines of a netlist is read as this netlist, as long as no signal is driven
twice. -/
theorem Spelled.read_text (hn : n.Spelled) {text : String}
    (htext : text.toList = n.textLines.flatMap (· ++ ['\n'])) (hnodup : n.driven.Nodup) :
    (NetlistText.ofBytes text.toUTF8.toList >>= Netlist.ofText) = .ok n := by
  have hpieces : Text.pieces (· == '\n') text.toList = n.textLines ++ [[]] := by
    rw [htext]
    refine Text.pieces_flatMap rfl fun line hline x hx => beq_eq_false_iff_ne.2 fun h => ?_
    exact hn.newline_not_mem_textLines line hline (h ▸ hx)
  have hblank : Says [[]] ⟨[], [], []⟩ := says_nothing fun _ => rfl
  obtain ⟨items, hitems, hinputs, houtputs, hsignals⟩ := hn.says_textLines.append hblank 1
  have hread : NetlistText.ofBytes text.toUTF8.toList = .ok (.ofLines items) := by
    rw [ofBytes_toUTF8, NetlistText.ofString, hpieces, hitems]
    rfl
  have happend : n ++ (⟨[], [], []⟩ : Netlist) = n := by
    show (⟨n.inputs ++ [], n.outputs ++ [], n.signals ++ []⟩ : Netlist) = n
    simp only [List.append_nil]
  rw [happend] at hinputs houtputs hsignals
  have hnone : repeated? [] (n.inputs ++ n.signals.map (·.name)) = none :=
    repeated?_eq_none_iff.2 ⟨hnodup, fun _ _ => List.not_mem_nil⟩
  rw [hread]
  show Netlist.ofText _ = _
  unfold Netlist.ofText
  simp only [hsignals, bind, Except.bind, hinputs, houtputs, hnone]
  rfl

end Netlist

end LogicCircuit
