import LogicCircuit.Proofs.Expr.Lexemes

/-!
# Stray characters

A character is stray if no token can take it: it is no blank, no symbol and no letter, and if it
is a digit it belongs to no word, as there is no letter in front of it in its run of letters and
digits (`StrayAt`). What is read in one step has no stray in it and decides nothing about those
behind it (`Passes`), so the scanner fails at the first stray of the text, and only there.
Together with the texts that are scanned this is the main result: `scans_exactly_renderings`.
-/

namespace LogicCircuit.Token

/-- A letter stands before a place, with letters and digits only from there to the place. -/
def BehindLetter (cs : List Char) (i : Nat) : Prop :=
  ∃ j < i, (∃ x, cs[j]? = some x ∧ x.isAlpha) ∧
    ∀ k, j < k → k < i → ∃ x, cs[k]? = some x ∧ x.isAlphanum

/-- The character at a place can stand in no token. -/
structure StrayAt (cs : List Char) (i : Nat) (c : Char) : Prop where
  getElem? : cs[i]? = some c
  not_blank : Text.isBlank c = false
  not_symbol : ∀ t : Token, c ∉ t.symbols
  not_letter : c.isAlpha = false
  not_in_word : ¬ (c.isDigit ∧ BehindLetter cs i)

/-- A stray with none before it. -/
structure FirstStrayAt (cs : List Char) (i : Nat) (c : Char) : Prop where
  stray : StrayAt cs i c
  first : ∀ j < i, ∀ d, ¬ StrayAt cs j d

variable {c d : Char} {tail cs word rest : List Char} {i j position : Nat} {placed : List Placed}
  {stray : Stray}

/-- A text has one first stray at most. -/
theorem FirstStrayAt.unique (h : FirstStrayAt cs i c) (h' : FirstStrayAt cs j d) :
    i = j ∧ c = d := by
  have hplace : i = j := by
    rcases Nat.lt_trichotomy i j with hlt | heq | hgt
    · exact absurd h.stray (h'.first i hlt c)
    · exact heq
    · exact absurd h'.stray (h.first j hgt d)
  subst hplace
  exact ⟨rfl, Option.some.inj (h.stray.getElem?.symm.trans h'.stray.getElem?)⟩

/-! ## What is passed over -/

/-- Characters in front have no stray among them, and those behind are strays as they are without
them. -/
structure Passes (word rest : List Char) : Prop where
  none : ∀ i < word.length, ∀ d, ¬ StrayAt (word ++ rest) i d
  same : ∀ i d, StrayAt (word ++ rest) (word.length + i) d ↔ StrayAt rest i d

/-- The first stray stays the first. -/
theorem Passes.firstStrayAt (h : Passes word rest) (hfirst : FirstStrayAt rest i c) :
    FirstStrayAt (word ++ rest) (word.length + i) c := by
  refine ⟨(h.same i c).2 hfirst.stray, fun j hj d hd => ?_⟩
  rcases Nat.lt_or_ge j word.length with hlt | hge
  · exact h.none j hlt d hd
  · obtain ⟨k, rfl⟩ := Nat.exists_eq_add_of_le hge
    exact hfirst.first k (by omega) d ((h.same k d).1 hd)

/-- Where there was no stray there is none. -/
theorem Passes.not_strayAt (h : Passes word rest) (hnone : ∀ i d, ¬ StrayAt rest i d) :
    ∀ i d, ¬ StrayAt (word ++ rest) i d := by
  intro i d hd
  rcases Nat.lt_or_ge i word.length with hlt | hge
  · exact h.none i hlt d hd
  · obtain ⟨k, rfl⟩ := Nat.exists_eq_add_of_le hge
    exact hnone k d ((h.same k d).1 hd)

/-- Whether a character is stray depends on the character and, if it is a digit, on what stands
before it. -/
theorem strayAt_congr {cs' : List Char} (hfound : cs[i]? = cs'[j]?)
    (hbehind : ∀ x ∈ cs'[j]?, x.isDigit → (BehindLetter cs i ↔ BehindLetter cs' j)) :
    StrayAt cs i d ↔ StrayAt cs' j d := by
  constructor
  · intro h
    have hplace := hfound ▸ h.getElem?
    exact ⟨hplace, h.not_blank, h.not_symbol, h.not_letter, fun hdigit =>
      h.not_in_word ⟨hdigit.1, (hbehind d hplace hdigit.1).2 hdigit.2⟩⟩
  · intro h
    exact ⟨hfound.trans h.getElem?, h.not_blank, h.not_symbol, h.not_letter, fun hdigit =>
      h.not_in_word ⟨hdigit.1, (hbehind d h.getElem? hdigit.1).1 hdigit.2⟩⟩

/-- A character that is no letter makes no place stand behind a letter. -/
theorem behindLetter_cons_iff (hc : c.isAlpha = false) :
    BehindLetter (c :: cs) (i + 1) ↔ BehindLetter cs i := by
  constructor
  · rintro ⟨j, hj, ⟨x, hx, hletter⟩, hbetween⟩
    cases j with
    | zero =>
        obtain rfl : c = x := Option.some.inj hx
        simp [hc] at hletter
    | succ j =>
        refine ⟨j, by omega, ⟨x, hx, hletter⟩, fun k hjk hki => ?_⟩
        exact hbetween (k + 1) (by omega) (by omega)
  · rintro ⟨j, hj, hletter, hbetween⟩
    refine ⟨j + 1, by omega, hletter, fun k hjk hki => ?_⟩
    obtain ⟨k, rfl⟩ := Nat.exists_eq_add_of_le hjk
    have hplace : j + 1 + 1 + k = (j + 1 + k) + 1 := by omega
    rw [hplace, List.getElem?_cons_succ]
    exact hbetween (j + 1 + k) (by omega) (by omega)

/-- A blank or a symbol is passed over. -/
theorem passes_single (hletter : c.isAlpha = false)
    (hc : Text.isBlank c ∨ ∃ t : Token, c ∈ t.symbols) : Passes [c] rest := by
  refine ⟨fun i hi d hd => ?_, fun i d => ?_⟩
  · obtain rfl : i = 0 := by simpa using hi
    obtain rfl : c = d := Option.some.inj hd.getElem?
    rcases hc with hblank | ⟨t, ht⟩
    · simp [hd.not_blank] at hblank
    · exact hd.not_symbol t ht
  · rw [List.length_singleton, Nat.add_comm 1, List.singleton_append]
    exact strayAt_congr rfl fun _ _ _ => behindLetter_cons_iff hletter

theorem passes_blank (h : Text.isBlank c) : Passes [c] rest := by
  refine passes_single (Bool.eq_false_iff.2 fun hletter => ?_) (.inl h)
  rw [isBlank_eq_false_of_isAlpha hletter] at h
  cases h

theorem passes_symbol {t : Token} (h : c ∈ t.symbols) : Passes [c] rest :=
  passes_single (isBlank_isAlpha_of_mem_symbols h).2 (.inr ⟨t, h⟩)

theorem getElem?_append_length_add (word rest : List Char) (i : Nat) :
    (word ++ rest)[word.length + i]? = rest[i]? := by
  rw [List.getElem?_append_right (Nat.le_add_right _ _), Nat.add_sub_cancel_left]

/-- No letter of a word reaches beyond the character behind the word. -/
theorem behindLetter_append_iff (hrest : ∀ x ∈ rest.head?, x.isAlphanum = false) :
    BehindLetter (word ++ rest) (word.length + (i + 1)) ↔ BehindLetter rest (i + 1) := by
  constructor
  · rintro ⟨j, hj, hletter, hbetween⟩
    rcases Nat.lt_or_ge j word.length with hlt | hge
    · obtain ⟨x, hx, halphanum⟩ := hbetween (word.length + 0) (by omega) (by omega)
      rw [getElem?_append_length_add, ← List.head?_eq_getElem?] at hx
      simp [hrest x hx] at halphanum
    · obtain ⟨j, rfl⟩ := Nat.exists_eq_add_of_le hge
      rw [getElem?_append_length_add] at hletter
      refine ⟨j, by omega, hletter, fun k hjk hki => ?_⟩
      rw [← getElem?_append_length_add word]
      exact hbetween _ (by omega) (by omega)
  · rintro ⟨j, hj, hletter, hbetween⟩
    refine ⟨word.length + j, by omega, by rwa [getElem?_append_length_add], fun k hjk hki => ?_⟩
    obtain ⟨k, rfl⟩ := Nat.exists_eq_add_of_le (by omega : word.length ≤ k)
    rw [getElem?_append_length_add]
    exact hbetween k (by omega) (by omega)

/-- A word is passed over where no letter or digit follows. -/
theorem passes_word (hc : c.isAlpha) (htail : ∀ x ∈ tail, x.isAlphanum)
    (hrest : ∀ x ∈ rest.head?, x.isAlphanum = false) : Passes (c :: tail) rest := by
  refine ⟨fun i hi d hd => ?_, fun i d => ?_⟩
  · have hplace : (c :: tail)[i]? = some d :=
      (List.getElem?_append_left hi).symm.trans hd.getElem?
    cases i with
    | zero =>
        obtain rfl : c = d := Option.some.inj hplace
        simp [hd.not_letter] at hc
    | succ i =>
        -- it would be a digit, but the letter at the start of the word stands before it
        have hdigit : d.isDigit := by
          simpa [Char.isAlphanum, hd.not_letter] using htail d (List.mem_of_getElem? hplace)
        refine hd.not_in_word ⟨hdigit, 0, Nat.succ_pos i, ⟨c, rfl, hc⟩, fun k hk hki => ?_⟩
        obtain ⟨k, rfl⟩ := Nat.exists_eq_add_of_le' hk
        have hk : k < tail.length := by simpa using hki.trans hi
        refine ⟨tail[k], ?_, htail _ (List.getElem_mem hk)⟩
        rw [List.cons_append, List.getElem?_cons_succ, List.getElem?_append_left hk,
          List.getElem?_eq_getElem hk]
  · refine strayAt_congr (getElem?_append_length_add _ rest i) fun x hx hdigit => ?_
    cases i with
    | zero =>
        rw [← List.head?_eq_getElem?] at hx
        exact absurd (hrest x hx) (by simp [Char.isAlphanum, hdigit])
    | succ i => exact behindLetter_append_iff hrest

/-! ## The scanner -/

/-- The word at the start of a text is passed over. -/
theorem passes_takeWhile (hc : c.isAlpha) (cs : List Char) :
    Passes (c :: cs.takeWhile Char.isAlphanum) (cs.dropWhile Char.isAlphanum) :=
  passes_word hc (fun _ hx => List.mem_takeWhile_imp hx) (isAlphanum_head?_dropWhile cs)

/-- A text that is scanned has no stray. -/
theorem not_strayAt_of_scan (h : scan position cs = .ok placed) : ∀ i d, ¬ StrayAt cs i d := by
  fun_induction scan position cs generalizing placed with
  | case1 => exact fun i d hd => by cases hd.getElem?
  | case2 position c cs hblank ih => exact (passes_blank hblank).not_strayAt (ih h)
  | case3 position c cs hblank halpha tail =>
      rename_i ih
      obtain ⟨more, hmore, -⟩ := exists_of_map_cons_eq_ok h
      have hnone := (passes_takeWhile halpha cs).not_strayAt (ih hmore)
      rwa [List.cons_append, List.takeWhile_append_dropWhile] at hnone
  | case4 position c cs hblank halpha t ht ih =>
      obtain ⟨more, hmore, -⟩ := exists_of_map_cons_eq_ok h
      exact (passes_symbol (ofSymbol?_eq_some_iff.1 ht)).not_strayAt (ih hmore)
  | case5 => cases h

/-- Where the scanner fails is the first stray. -/
theorem firstStrayAt_of_scan (h : scan position cs = .error stray) :
    ∃ i, stray.position = position + i ∧ FirstStrayAt cs i stray.character := by
  have hfailed : ∀ {p : Placed} {more : Except Stray (List Placed)},
      more.map (p :: ·) = .error stray → more = .error stray := by
    rintro p (_ | _) h
    · exact h
    · cases h
  fun_induction scan position cs with
  | case1 => cases h
  | case2 position c cs hblank ih =>
      obtain ⟨i, hposition, hfirst⟩ := ih h
      exact ⟨1 + i, by omega, (passes_blank hblank).firstStrayAt hfirst⟩
  | case3 position c cs hblank halpha tail =>
      rename_i ih
      obtain ⟨i, hposition, hfirst⟩ := ih (hfailed h)
      have hword := (passes_takeWhile halpha cs).firstStrayAt hfirst
      rw [List.cons_append, List.takeWhile_append_dropWhile] at hword
      have hplace : position + 1 + tail.length + i = position + ((c :: tail).length + i) := by
        rw [List.length_cons]
        omega
      exact ⟨_, hposition.trans hplace, hword⟩
  | case4 position c cs hblank halpha t ht ih =>
      obtain ⟨i, hposition, hfirst⟩ := ih (hfailed h)
      have hsymbol := ofSymbol?_eq_some_iff.1 ht
      exact ⟨1 + i, by omega, (passes_symbol hsymbol).firstStrayAt hfirst⟩
  | case5 position c cs hblank halpha hnone =>
      cases h
      refine ⟨0, rfl, ⟨rfl, by simpa using hblank, fun t ht => ?_, by simpa using halpha, ?_⟩,
        fun j hj => absurd hj (Nat.not_lt_zero j)⟩
      · cases hnone.symm.trans (ofSymbol?_eq_some_iff.2 ht)
      · rintro ⟨-, j, hj, -⟩
        exact absurd hj (Nat.not_lt_zero j)

/-- A text is scanned as what it renders, each token at its place, and as nothing else. It is
refused exactly for its first stray, and it has one exactly if it renders no tokens. -/
theorem scans_exactly_renderings (text : String) :
    (∀ placed, ofText text = .ok placed ↔ Rendering 0 text.toList placed) ∧
    (∀ stray, ofText text = .error stray ↔
      FirstStrayAt text.toList stray.position stray.character) ∧
    ((¬ ∃ placed, Rendering 0 text.toList placed) ↔ ∃ i c, FirstStrayAt text.toList i c) := by
  have herror : ∀ {stray}, ofText text = .error stray →
      FirstStrayAt text.toList stray.position stray.character := fun hscan => by
    obtain ⟨i, hposition, hfirst⟩ := firstStrayAt_of_scan hscan
    rw [Nat.zero_add] at hposition
    rwa [hposition]
  refine ⟨fun placed => scan_eq_ok_iff, fun stray => ⟨herror, fun hfirst => ?_⟩, ?_⟩
  · cases hscan : ofText text with
    | ok placed => exact absurd hfirst.stray (not_strayAt_of_scan hscan _ _)
    | error other =>
        obtain ⟨c, i⟩ := stray
        obtain ⟨d, j⟩ := other
        obtain ⟨rfl, rfl⟩ : j = i ∧ d = c := (herror hscan).unique hfirst
        rfl
  · constructor
    · intro hnone
      cases hscan : ofText text with
      | ok placed => exact absurd ⟨placed, rendering_of_scan hscan⟩ hnone
      | error stray => exact ⟨_, _, herror hscan⟩
    · rintro ⟨i, c, hfirst⟩ ⟨placed, hrendering⟩
      exact not_strayAt_of_scan hrendering.scan_eq i c hfirst.stray

/-- A digit belongs to the word before it, also behind a constant, but not to the constant. -/
example : ofText "1a2 02" = .error ⟨'2', 5⟩ := by decide +kernel

end LogicCircuit.Token
