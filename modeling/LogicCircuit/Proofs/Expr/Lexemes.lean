import LogicCircuit.Proofs.Expr.Scanning

/-!
# Lexemes

What a text of tokens looks like, said without the scanner: runs of blanks with one lexeme between
them for each token (`Rendering`). The lexeme of a token is one of its symbols, or a word: its
keyword in any case, or a name of the variable in any case (`Token.Word`). Only a word has to be
kept apart from a letter or a digit behind it. A text is scanned as the tokens that it renders,
with their places, and as nothing else: `Token.scan_eq_ok_iff`.
-/

namespace LogicCircuit.Token

/-- The symbols of a token. -/
def symbols : Token → List Char
  | operator .and => ['·', '∧', '*']
  | operator .or => ['+', '∨']
  | not => ['¬', '!', '\x27']
  | operator .xor => ['⊕']
  | operator .nand => ['⊼']
  | operator .nor => ['⊽']
  | opening => ['(']
  | closing => [')']
  | const on => [if on then '1' else '0']
  | var _ => []

/-- The keyword of a token. -/
def keyword? : Token → Option String
  | operator .and => some "AND"
  | operator .or => some "OR"
  | not => some "NOT"
  | operator .xor => some "XOR"
  | operator .nand => some "NAND"
  | operator .nor => some "NOR"
  | var _ | const _ | opening | closing => none

/-- A word spells a token: its keyword in any case, or, for a variable, a letter with letters and
digits behind it, which is in capitals the name of the variable and no keyword. -/
inductive Word : Token → List Char → Prop where
  | keyword {t : Token} {name : String} {word : List Char} :
      t.keyword? = some name → word.map Char.toUpper = name.toList → Word t word
  | name {name : String} {c : Char} {tail : List Char} :
      c.isAlpha → (∀ x ∈ tail, x.isAlphanum) → (c :: tail).map Char.toUpper = name.toList →
        (∀ t : Token, t.keyword? ≠ some name) → Word (.var name) (c :: tail)

/-- A text that starts at some position is made of blanks and the lexemes of tokens, each at its
place. -/
inductive Rendering : Nat → List Char → List Placed → Prop where
  | blanks {position : Nat} {blanks : List Char} :
      (∀ x ∈ blanks, Text.isBlank x) → Rendering position blanks []
  | symbol {position : Nat} {blanks rest : List Char} {c : Char} {t : Token}
      {placed : List Placed} :
      (∀ x ∈ blanks, Text.isBlank x) → c ∈ t.symbols →
        Rendering (position + blanks.length + 1) rest placed →
          Rendering position (blanks ++ c :: rest) (⟨t, position + blanks.length⟩ :: placed)
  | word {position : Nat} {blanks word rest : List Char} {t : Token} {placed : List Placed} :
      (∀ x ∈ blanks, Text.isBlank x) → t.Word word → (∀ x ∈ rest.head?, x.isAlphanum = false) →
        Rendering (position + blanks.length + word.length) rest placed →
          Rendering position (blanks ++ (word ++ rest))
            (⟨t, position + blanks.length⟩ :: placed)

variable {c : Char} {t : Token} {name : String} {word cs rest blanks : List Char}
  {placed : List Placed} {position : Nat}

/-! ## Symbols -/

/-- The symbols of a token are the characters that are scanned as it. -/
theorem ofSymbol?_eq_some_iff : ofSymbol? c = some t ↔ c ∈ t.symbols := by
  constructor
  · unfold ofSymbol?
    split <;> rintro ⟨⟩ <;> simp [symbols]
  · intro h
    have hall : (t.symbols.all fun x => ofSymbol? x == some t) = true := by
      cases t with
      | operator op => cases op <;> decide
      | const on => cases on <;> decide
      | var | not | opening | closing => rfl
    simpa using List.all_eq_true.1 hall c h

/-- A symbol is neither a blank nor a letter. -/
theorem isBlank_isAlpha_of_mem_symbols (h : c ∈ t.symbols) :
    Text.isBlank c = false ∧ c.isAlpha = false := by
  have hall : (t.symbols.all fun x => !Text.isBlank x && !x.isAlpha) = true := by
    cases t with
    | operator op => cases op <;> decide
    | const on => cases on <;> decide
    | var | not | opening | closing => rfl
  simpa using List.all_eq_true.1 hall c h

/-! ## Words -/

/-- The keyword of a token is its text, where the token has one. -/
theorem keyword?_eq_some_iff : t.keyword? = some name ↔ t ∈ keywords ∧ t.text = name := by
  cases t with
  | operator op => cases op <;> simp [keyword?, keywords, BinaryOp.all, text, BinaryOp.name,
      BinaryOp.gate, Gate.name]
  | not => simp [keyword?, keywords, text, Gate.name]
  | var | const | opening | closing => simp [keyword?, keywords]

/-- No two tokens have one keyword. -/
theorem eq_of_keyword? {u : Token} (ht : t.keyword? = some name) (hu : u.keyword? = some name) :
    t = u := by
  have hdistinct : ∀ t ∈ keywords, ∀ u ∈ keywords, t.text = u.text → t = u := by decide
  obtain ⟨ht, htext⟩ := keyword?_eq_some_iff.1 ht
  obtain ⟨hu, hutext⟩ := keyword?_eq_some_iff.1 hu
  exact hdistinct t ht u hu (htext.trans hutext.symm)

/-- A keyword is made of capital letters. -/
theorem isUpper_of_keyword? (h : t.keyword? = some name) :
    name.toList ≠ [] ∧ ∀ x ∈ name.toList, x.isUpper := by
  have hall : name.toList ≠ [] ∧ name.toList.all Char.isUpper = true := by
    cases t with
    | operator op => cases op <;> obtain rfl := Option.some.inj h <;> decide
    | not =>
        obtain rfl := Option.some.inj h
        decide
    | var | const | opening | closing => cases h
  exact hall.imp_right List.all_eq_true.1

/-- A word is a letter with letters and digits behind it. -/
theorem Word.exists_cons (h : t.Word word) :
    ∃ c tail, word = c :: tail ∧ c.isAlpha ∧ ∀ x ∈ tail, x.isAlphanum := by
  cases h with
  | @name name c tail hc htail => exact ⟨c, tail, rfl, hc, htail⟩
  | keyword hname hword =>
      obtain ⟨hne, hupper⟩ := isUpper_of_keyword? hname
      have hletters : ∀ x ∈ word, x.isAlpha := fun x hx => by
        rw [← Char.isUpper_toUpper_eq_isAlpha]
        exact hupper _ (hword ▸ List.mem_map_of_mem hx)
      cases word with
      | nil => exact absurd hword.symm hne
      | cons c tail =>
          obtain ⟨hc, htail⟩ := List.forall_mem_cons.1 hletters
          exact ⟨c, tail, rfl, hc, fun x hx => by simp [Char.isAlphanum, htail x hx]⟩

/-- A word is scanned as the token that it spells. -/
theorem ofWord_eq (h : t.Word word) : ofWord word = t := by
  cases h with
  | keyword hname hword =>
      rcases ofWord_cases word with ⟨hmem, htext⟩ | ⟨-, hnone⟩
      · rw [hword, String.ofList_toList] at htext
        exact eq_of_keyword? (keyword?_eq_some_iff.2 ⟨hmem, htext⟩) hname
      · obtain ⟨hmem, htext⟩ := keyword?_eq_some_iff.1 hname
        exact absurd (by rw [hword, String.ofList_toList, htext]) (hnone t hmem)
  | name hc htail hword hnone =>
      rcases ofWord_cases (_ :: _) with ⟨hmem, htext⟩ | ⟨hvar, -⟩
      · rw [hword, String.ofList_toList] at htext
        exact absurd (keyword?_eq_some_iff.2 ⟨hmem, htext⟩) (hnone _)
      · rw [hvar, hword, String.ofList_toList]

/-- Every word spells the token that it is scanned as. -/
theorem word_ofWord {tail : List Char} (hc : c.isAlpha) (htail : ∀ x ∈ tail, x.isAlphanum) :
    (ofWord (c :: tail)).Word (c :: tail) := by
  rcases ofWord_cases (c :: tail) with hkeyword | ⟨hvar, hnone⟩
  · exact .keyword (keyword?_eq_some_iff.2 hkeyword) String.toList_ofList.symm
  · rw [hvar]
    refine .name hc htail String.toList_ofList.symm fun t ht => ?_
    obtain ⟨hmem, htext⟩ := keyword?_eq_some_iff.1 ht
    exact hnone t hmem htext

/-! ## Renderings -/

/-- One more blank may stand in front. -/
theorem Rendering.blank (hc : Text.isBlank c) (h : Rendering (position + 1) cs placed) :
    Rendering position (c :: cs) placed := by
  have hmoved : ∀ blanks : List Char,
      position + 1 + blanks.length = position + (c :: blanks).length := fun blanks => by
    rw [List.length_cons]
    omega
  cases h with
  | blanks hblanks => exact .blanks (List.forall_mem_cons.2 ⟨hc, hblanks⟩)
  | symbol hblanks hsymbol hrest =>
      rw [hmoved] at hrest ⊢
      exact .symbol (List.forall_mem_cons.2 ⟨hc, hblanks⟩) hsymbol hrest
  | word hblanks hword hhead hrest =>
      rw [hmoved] at hrest ⊢
      exact .word (List.forall_mem_cons.2 ⟨hc, hblanks⟩) hword hhead hrest

/-- What is scanned is a rendering of the result. -/
theorem rendering_of_scan (h : scan position cs = .ok placed) : Rendering position cs placed := by
  fun_induction scan position cs generalizing placed with
  | case1 position =>
      obtain rfl := Except.ok.inj h
      exact .blanks (by simp)
  | case2 position c cs hblank ih => exact (ih h).blank hblank
  | case3 position c cs hblank halpha tail =>
      rename_i ih
      obtain ⟨more, hmore, rfl⟩ := exists_of_map_cons_eq_ok h
      have htail : ∀ x ∈ tail, x.isAlphanum := fun x hx => List.mem_takeWhile_imp hx
      have hhead := isAlphanum_head?_dropWhile cs
      have hrest := ih hmore
      rw [Nat.add_assoc, Nat.add_comm 1, ← List.length_cons (a := c)] at hrest
      have hword : Rendering position ([] ++ (c :: tail ++ cs.dropWhile Char.isAlphanum)) _ :=
        .word (by simp) (word_ofWord halpha htail) hhead hrest
      rwa [List.nil_append, List.cons_append, List.takeWhile_append_dropWhile] at hword
  | case4 position c cs hblank halpha t ht ih =>
      obtain ⟨more, hmore, rfl⟩ := exists_of_map_cons_eq_ok h
      rw [← List.nil_append (c :: cs)]
      exact .symbol (by simp) (ofSymbol?_eq_some_iff.1 ht) (ih hmore)
  | case5 => cases h

/-- Blanks in front are passed over. -/
theorem scan_blanks (h : ∀ x ∈ blanks, Text.isBlank x) (position : Nat) :
    scan position (blanks ++ rest) = scan (position + blanks.length) rest := by
  induction blanks generalizing position with
  | nil => rfl
  | cons c blanks ih =>
      obtain ⟨hc, hblanks⟩ := List.forall_mem_cons.1 h
      rw [List.cons_append, scan_blank hc, ih hblanks, List.length_cons, Nat.add_assoc,
        Nat.add_comm 1]

/-- A rendering is scanned as its tokens. -/
theorem Rendering.scan_eq (h : Rendering position cs placed) : scan position cs = .ok placed := by
  induction h with
  | @blanks position blanks hblanks =>
      rw [← List.append_nil blanks, scan_blanks hblanks, scan]
  | symbol hblanks hc _ ih =>
      obtain ⟨hblank, halpha⟩ := isBlank_isAlpha_of_mem_symbols hc
      rw [scan_blanks hblanks, scan_symbol hblank halpha (ofSymbol?_eq_some_iff.2 hc), ih]
      rfl
  | word hblanks hword hhead _ ih =>
      have htoken := ofWord_eq hword
      obtain ⟨c, tail, rfl, hc, htail⟩ := hword.exists_cons
      rw [scan_blanks hblanks, scan_word hc htail hhead, ih, htoken]
      rfl

/-- A text is scanned as exactly the tokens that it renders. -/
theorem scan_eq_ok_iff : scan position cs = .ok placed ↔ Rendering position cs placed :=
  ⟨rendering_of_scan, Rendering.scan_eq⟩

end LogicCircuit.Token
