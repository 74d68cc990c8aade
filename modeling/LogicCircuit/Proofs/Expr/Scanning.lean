import LogicCircuit.Expr.Parser
import Mathlib

/-!
# Scanning printed expressions

`Token.Scans` says which tokens characters give in front of others, wherever they stand in a text.
Blanks, symbols and words are scanned one by one (`Scans.blank`, `Scans.symbol`, `Scans.word`), a
word only where no letter or digit follows; `Scans.append` puts them together. So the printed form
of an expression is scanned as its tokens (`Expr.scans_text`), provided that its variables bear
names that can be written. The scanner makes no others: `Token.isName_of_mem_scan`.
-/

namespace LogicCircuit

/-- A capital letter with the capital letters and digits that follow it. -/
def isCapitalWord : List Char → Bool
  | [] => false
  | c :: cs => c.isUpper && cs.all fun x => x.isUpper || x.isDigit

/-- A name that can be written: a word in capitals that is not a keyword. -/
def IsName (name : String) : Prop :=
  isCapitalWord name.toList ∧ name ∉ ["AND", "OR", "NOT", "XOR", "NAND", "NOR"]

instance (name : String) : Decidable (IsName name) := inferInstanceAs (Decidable (_ ∧ _))

/-- Every variable has a name that can be written. -/
def Expr.WellNamed (e : Expr) : Prop := ∀ name ∈ e.occurrences, IsName name

instance (e : Expr) : Decidable e.WellNamed := inferInstanceAs (Decidable (∀ _ ∈ _, _))

/-- The tokens of the printed form. -/
def Expr.tokens : Expr → List Token
  | var name => [.var name]
  | const on => [.const on]
  | not e => .not :: e.tokens
  | binary op a b => .opening :: a.tokens ++ .operator op :: b.tokens ++ [.closing]

/-! ## Letters -/

theorem isBlank_eq_false_of_isAlpha {c : Char} (h : c.isAlpha) : Text.isBlank c = false := by
  have hrange : 65 ≤ c.toNat ∧ c.toNat ≤ 122 := by
    simp only [Char.isAlpha, Char.isUpper, Char.isLower, Bool.or_eq_true, Bool.and_eq_true,
      decide_eq_true_eq, ge_iff_le, UInt32.le_iff_toNat_le, Char.toNat_val] at h
    simp at h
    omega
  simp [Text.isBlank, Text.blankRanges]
  omega

/-- A word in capitals is a letter with letters and digits behind it. -/
theorem exists_cons_of_isCapitalWord {cs : List Char} (h : isCapitalWord cs) :
    ∃ c tail, cs = c :: tail ∧ c.isAlpha ∧ ∀ x ∈ tail, x.isAlphanum := by
  cases cs with
  | nil => simp [isCapitalWord] at h
  | cons c tail =>
      simp only [isCapitalWord, Bool.and_eq_true, List.all_eq_true, Bool.or_eq_true] at h
      refine ⟨c, tail, rfl, by simp [Char.isAlpha, h.1], fun x hx => ?_⟩
      rcases h.2 x hx with hx | hx
      · simp [Char.isAlphanum, Char.isAlpha, hx]
      · simp [Char.isAlphanum, hx]

theorem not_isLower_of_isDigit {c : Char} (h : c.isDigit) : ¬ c.isLower := by
  simp only [Char.isDigit, Char.isLower, Bool.and_eq_true, decide_eq_true_eq, ge_iff_le,
    UInt32.le_iff_toNat_le, Char.toNat_val] at h ⊢
  simp at h ⊢
  omega

/-- A word in capitals is not changed by writing it in capitals. -/
theorem map_toUpper_of_isCapitalWord {cs : List Char} (h : isCapitalWord cs) :
    cs.map Char.toUpper = cs := by
  have hfixed : ∀ x ∈ cs, ¬ x.isLower := by
    cases cs with
    | nil => simp
    | cons c tail =>
        simp only [isCapitalWord, Bool.and_eq_true, List.all_eq_true, Bool.or_eq_true] at h
        intro x hx
        rcases List.mem_cons.1 hx with rfl | hx
        · exact Char.not_isLower_of_isUpper h.1
        · exact (h.2 x hx).elim Char.not_isLower_of_isUpper not_isLower_of_isDigit
  exact (List.map_congr_left fun x hx => Char.toUpper_eq_of_not_isLower (hfixed x hx)).trans
    (List.map_id _)

/-- A letter with letters and digits behind it is a word in capitals when it is written in
capitals.
-/
theorem isCapitalWord_map_toUpper {c : Char} {tail : List Char} (hc : c.isAlpha)
    (htail : ∀ x ∈ tail, x.isAlphanum) : isCapitalWord ((c :: tail).map Char.toUpper) := by
  simp only [List.map_cons, isCapitalWord, Char.isUpper_toUpper_eq_isAlpha, hc, List.all_map,
    Bool.true_and, List.all_eq_true, Function.comp_apply, Bool.or_eq_true]
  intro x hx
  have hx := htail x hx
  by_cases halpha : x.isAlpha
  · exact .inl halpha
  · have hlower : ¬ x.isLower := fun h => halpha (by simp [Char.isAlpha, h])
    rw [Char.toUpper_eq_of_not_isLower hlower]
    simp only [Char.isAlphanum, Bool.or_eq_true] at hx
    exact hx.imp_left fun h => absurd h halpha

namespace Token

/-! ## Words -/

/-- No keyword is a variable. -/
theorem ne_var_of_mem_keywords {t : Token} (h : t ∈ keywords) (name : String) :
    t ≠ .var name := by
  rintro rfl
  simp [keywords] at h

/-- A word in capitals is the text of a keyword, or else the name of a variable. -/
theorem ofWord_cases (word : List Char) :
    ofWord word ∈ keywords ∧ (ofWord word).text = String.ofList (word.map Char.toUpper) ∨
      ofWord word = .var (String.ofList (word.map Char.toUpper)) ∧
        ∀ t ∈ keywords, t.text ≠ String.ofList (word.map Char.toUpper) := by
  have hword : ofWord word = (keywords.find? fun t => t.text == String.ofList
      (word.map Char.toUpper)).getD (.var (String.ofList (word.map Char.toUpper))) := by
    rw [ofWord, Text.capitals, String.toList_ofList]
  rw [hword]
  generalize String.ofList (word.map Char.toUpper) = upper
  cases hfind : keywords.find? fun t => t.text == upper with
  | none =>
      exact .inr ⟨rfl, fun t ht => by simpa using List.find?_eq_none.1 hfind t ht⟩
  | some t =>
      exact .inl ⟨List.mem_of_find?_eq_some hfind, by simpa using List.find?_some hfind⟩

/-- The texts of the keywords. -/
theorem text_keywords : keywords.map text = ["NOT", "AND", "OR", "XOR", "NAND", "NOR"] := rfl

/-- A word is a variable exactly if it is no keyword; it is named by its capitals. -/
theorem ofWord_eq_var_iff {word : List Char} {name : String} : ofWord word = .var name ↔
    name = String.ofList (word.map Char.toUpper) ∧
      name ∉ ["AND", "OR", "NOT", "XOR", "NAND", "NOR"] := by
  have htexts :
      name ∈ ["AND", "OR", "NOT", "XOR", "NAND", "NOR"] ↔ ∃ t ∈ keywords, t.text = name := by
    rw [← List.mem_map, text_keywords]
    simp only [List.mem_cons, List.not_mem_nil, or_false]
    tauto
  rw [htexts]
  rcases ofWord_cases word with ⟨hmem, htext⟩ | ⟨hvar, hnone⟩
  · refine ⟨fun h => absurd h (ne_var_of_mem_keywords hmem name), fun h => absurd ?_ h.2⟩
    exact ⟨ofWord word, hmem, htext.trans h.1.symm⟩
  · rw [hvar, Token.var.injEq]
    refine ⟨?_, fun h => h.1.symm⟩
    rintro rfl
    exact ⟨rfl, fun ⟨t, ht, htext⟩ => hnone t ht htext⟩

/-- A name that can be written is scanned as the variable of that name. -/
theorem ofWord_of_isName {name : String} (h : IsName name) : ofWord name.toList = .var name := by
  refine ofWord_eq_var_iff.2 ⟨?_, h.2⟩
  rw [map_toUpper_of_isCapitalWord h.1, String.ofList_toList]

/-- The variable that a word is scanned as has a name that can be written. -/
theorem isName_of_ofWord {c : Char} {tail : List Char} {name : String} (hc : c.isAlpha)
    (htail : ∀ x ∈ tail, x.isAlphanum) (h : ofWord (c :: tail) = .var name) : IsName name := by
  obtain ⟨rfl, hword⟩ := ofWord_eq_var_iff.1 h
  refine ⟨?_, hword⟩
  rw [String.toList_ofList]
  exact isCapitalWord_map_toUpper hc htail

/-! ## The first step of the scanner -/

variable {cs cs' rest : List Char} {ts ts' : List Token} {c : Char} {t : Token}

/-- A blank gives no token. -/
theorem scan_blank (hc : Text.isBlank c) (position : Nat) :
    scan position (c :: rest) = scan (position + 1) rest := by
  rw [scan, if_pos hc]

/-- A symbol gives its token. -/
theorem scan_symbol (hblank : Text.isBlank c = false) (halpha : c.isAlpha = false)
    (h : ofSymbol? c = some t) (position : Nat) :
    scan position (c :: rest) = (scan (position + 1) rest).map (⟨t, position⟩ :: ·) := by
  rw [scan, if_neg (by simp [hblank]), if_neg (by simp [halpha]), h]

/-- A word gives its token where no letter or digit follows. -/
theorem scan_word {tail : List Char} (hc : c.isAlpha) (htail : ∀ x ∈ tail, x.isAlphanum)
    (hrest : ∀ x ∈ rest.head?, x.isAlphanum = false) (position : Nat) :
    scan position (c :: tail ++ rest) = (scan (position + (c :: tail).length) rest).map
      (⟨ofWord (c :: tail), position⟩ :: ·) := by
  have htake : (tail ++ rest).takeWhile Char.isAlphanum = tail := by
    rw [List.takeWhile_append_of_pos htail]
    cases rest with
    | nil => simp
    | cons x rest => simp [hrest x rfl]
  have hdrop : (tail ++ rest).dropWhile Char.isAlphanum = rest := by
    rw [List.dropWhile_append_of_pos htail]
    cases rest with
    | nil => simp
    | cons x rest => simp [hrest x rfl]
  rw [List.cons_append, scan, if_neg (by simp [isBlank_eq_false_of_isAlpha hc]), if_pos hc]
  simp only [htake, hdrop, List.length_cons]
  rw [Nat.add_assoc, Nat.add_comm 1]

/-- No letter or digit follows where a word ends. -/
theorem isAlphanum_head?_dropWhile (cs : List Char) :
    ∀ x ∈ (cs.dropWhile Char.isAlphanum).head?, x.isAlphanum = false := by
  intro x hx
  have hnot := List.head?_dropWhile_not Char.isAlphanum cs
  rw [Option.mem_def.1 hx] at hnot
  simpa using hnot

/-- What is put in front of the tokens of the rest stands in front of all tokens. -/
theorem exists_of_map_cons_eq_ok {p : Placed} {more : Except Stray (List Placed)}
    {placed : List Placed} (h : more.map (p :: ·) = .ok placed) :
    ∃ others, more = .ok others ∧ placed = p :: others := by
  cases more with
  | error stray => cases h
  | ok others => exact ⟨others, rfl, (Except.ok.inj h).symm⟩

/-! ## Scanning in front of more text -/

/-- In front of `rest` the characters `cs` are scanned as the tokens `ts`, wherever they stand. -/
def Scans (cs : List Char) (ts : List Token) (rest : List Char) : Prop :=
  ∀ position, ∃ placed : List Placed, placed.map (·.token) = ts ∧
    scan position (cs ++ rest) = (scan (position + cs.length) rest).map (placed ++ ·)

/-- Characters in front of others give their tokens in front of theirs. -/
theorem Scans.append (h : Scans cs ts (cs' ++ rest)) (h' : Scans cs' ts' rest) :
    Scans (cs ++ cs') (ts ++ ts') rest := by
  intro position
  obtain ⟨placed, rfl, hscan⟩ := h position
  obtain ⟨placed', rfl, hscan'⟩ := h' (position + cs.length)
  refine ⟨placed ++ placed', List.map_append, ?_⟩
  rw [List.append_assoc, hscan, hscan', List.length_append, Nat.add_assoc]
  cases scan (position + (cs.length + cs'.length)) rest with
  | error s => rfl
  | ok more => simp [Except.map]

/-- A blank in front gives no token. -/
theorem Scans.blank (hc : Text.isBlank c) (h : Scans cs ts rest) : Scans (c :: cs) ts rest := by
  intro position
  obtain ⟨placed, hplaced, hscan⟩ := h (position + 1)
  refine ⟨placed, hplaced, ?_⟩
  rw [List.cons_append, scan_blank hc, hscan, List.length_cons, Nat.add_assoc, Nat.add_comm 1]

/-- Characters give one token if the scanner puts it in front of what follows them. -/
theorem Scans.single (h : ∀ position, scan position (cs ++ rest) =
    (scan (position + cs.length) rest).map (⟨t, position⟩ :: ·)) : Scans cs [t] rest :=
  fun position => ⟨[⟨t, position⟩], rfl, h position⟩

/-- A symbol gives its token. -/
theorem Scans.symbol (hblank : Text.isBlank c = false) (halpha : c.isAlpha = false)
    (h : ofSymbol? c = some t) : Scans [c] [t] rest :=
  .single (scan_symbol hblank halpha h)

/-- A word gives its token where no letter or digit follows. -/
theorem Scans.word {tail : List Char} (hc : c.isAlpha) (htail : ∀ x ∈ tail, x.isAlphanum)
    (hrest : ∀ x ∈ rest.head?, x.isAlphanum = false) :
    Scans (c :: tail) [ofWord (c :: tail)] rest :=
  .single (scan_word hc htail hrest)

/-- A word in capitals gives its token where no letter or digit follows. -/
theorem Scans.capitalWord (h : isCapitalWord cs)
    (hrest : ∀ x ∈ rest.head?, x.isAlphanum = false) :
    Scans cs [ofWord cs] rest := by
  obtain ⟨c, tail, rfl, hc, htail⟩ := exists_cons_of_isCapitalWord h
  exact .word hc htail hrest

theorem isCapitalWord_name (op : BinaryOp) : isCapitalWord op.name.toList := by
  cases op <;> decide

theorem ofWord_name (op : BinaryOp) : ofWord op.name.toList = .operator op := by
  cases op <;> decide

theorem ofWord_not : ofWord "NOT".toList = .not := by
  decide

/-! ## What the scanner makes -/

/-- No symbol is a variable. -/
theorem ofSymbol?_ne_var (c : Char) (name : String) : ofSymbol? c ≠ some (.var name) := by
  unfold ofSymbol?
  split <;> simp

/-- The scanner makes variables with names that can be written only. -/
theorem isName_of_mem_scan {position : Nat} {placed : List Placed}
    (h : scan position cs = .ok placed) :
    ∀ p ∈ placed, ∀ name, p.token = .var name → IsName name := by
  fun_induction scan position cs generalizing placed with
  | case1 position =>
      obtain rfl := Except.ok.inj h
      simp
  | case2 position c cs hblank ih => exact ih h
  | case3 position c cs hblank halpha tail =>
      rename_i ih
      obtain ⟨more, hmore, rfl⟩ := exists_of_map_cons_eq_ok h
      intro p hp name hname
      rcases List.mem_cons.1 hp with rfl | hp
      · have htail : ∀ x ∈ tail, x.isAlphanum := fun x hx => List.mem_takeWhile_imp hx
        simp only at hname
        exact isName_of_ofWord halpha htail hname
      · exact ih hmore p hp name hname
  | case4 position c cs hblank halpha t ht ih =>
      obtain ⟨more, hmore, rfl⟩ := exists_of_map_cons_eq_ok h
      intro p hp name hname
      rcases List.mem_cons.1 hp with rfl | hp
      · exact absurd (ht.trans (congrArg some hname)) (ofSymbol?_ne_var c name)
      · exact ih hmore p hp name hname
  | case5 => cases h

end Token

/-- The printed form is scanned as its tokens where no letter or digit follows. -/
theorem Expr.scans_text {e : Expr} (he : e.WellNamed) {rest : List Char}
    (hrest : ∀ x ∈ rest.head?, x.isAlphanum = false) :
    Token.Scans e.text.toList e.tokens rest := by
  induction e generalizing rest with
  | var name =>
      have hname : IsName name := he name (List.mem_singleton_self name)
      have hword := Token.Scans.capitalWord hname.1 hrest
      rwa [Token.ofWord_of_isName hname] at hword
  | const on => 
    have htext : (const on).text.toList = [if on then '1' else '0'] := by cases on <;> simp [text]
    rw [htext]
    cases on <;> exact .symbol (by decide) (by decide) rfl
  | not e ih =>
      have hword : Token.Scans "NOT".toList [.not] (' ' :: e.text.toList ++ rest) :=
        Token.ofWord_not ▸ .capitalWord (by decide) (by simp)
      have hall := hword.append ((ih he hrest).blank (by decide))
      have htext : (Expr.not e).text.toList = "NOT".toList ++ ' ' :: e.text.toList := by
        simp [text]
      rw [htext]
      exact hall
  | binary op a b iha ihb =>
      have ha : a.WellNamed := fun name hname => he name (List.mem_append_left _ hname)
      have hb : b.WellNamed := fun name hname => he name (List.mem_append_right _ hname)
      have hopening : ∀ rest, Token.Scans ['('] [.opening] rest := fun _ =>
        .symbol (by decide) (by decide) rfl
      have hclosing : Token.Scans [')'] [.closing] rest := .symbol (by decide) (by decide) rfl
      have hop : ∀ rest, Token.Scans op.name.toList [.operator op] (' ' :: rest) := fun rest =>
        Token.ofWord_name op ▸ .capitalWord (Token.isCapitalWord_name op) (by simp)
      -- a blank or a parenthesis follows each operand, so a word at its end is complete there
      have hright := ((ihb hb (by simp)).append hclosing).blank (c := ' ') (by decide)
      have hmiddle := ((hop _).append hright).blank (c := ' ') (by decide)
      have hall := (hopening _).append ((iha ha (by simp)).append hmiddle)
      have htext : (binary op a b).text.toList = ['('] ++ (a.text.toList ++
          ' ' :: (op.name.toList ++ ' ' :: (b.text.toList ++ [')']))) := by
        simp [text, String.toList_append]
      have htokens : (binary op a b).tokens =
          .opening :: (a.tokens ++ .operator op :: (b.tokens ++ [.closing])) := by
        simp [tokens]
      rw [htext, htokens]
      exact hall

end LogicCircuit
