/-!
# Pieces

Lists taken apart at the elements that separate. `pieces` takes a list apart at every separator
and `splitAt` at the first. `pieces_append_cons` says that the pieces before and behind a
separator are found independently, and `pieces_eq_singleton` that nothing is taken apart without
one.
-/

namespace LogicCircuit.Text

variable {α : Type} {separates : α → Bool}

/-- The pieces of a list between the elements that separate them; there is always one more piece
than there are separators. -/
def pieces (separates : α → Bool) : List α → List (List α)
  | [] => [[]]
  | c :: cs =>
    match pieces separates cs with
    | [] => [[c]]
    | p :: ps => if separates c then [] :: p :: ps else (c :: p) :: ps

theorem pieces_ne_nil (separates : α → Bool) (xs : List α) : pieces separates xs ≠ [] := by
  cases xs with
  | nil => simp [pieces]
  | cons c cs =>
    unfold pieces
    split
    · simp
    · split <;> simp

theorem pieces_cons_of_separates {c : α} (hc : separates c) (cs : List α) :
    pieces separates (c :: cs) = [] :: pieces separates cs := by
  obtain ⟨p, ps, h⟩ := List.exists_cons_of_ne_nil (pieces_ne_nil separates cs)
  simp [pieces, h, hc]

theorem pieces_append_cons {xs : List α} (hx : ∀ x ∈ xs, separates x = false) {c : α}
    (hc : separates c) (cs : List α) :
    pieces separates (xs ++ c :: cs) = xs :: pieces separates cs := by
  induction xs with
  | nil => exact pieces_cons_of_separates hc cs
  | cons x xs ih =>
    have rest := ih fun y hy => hx y (List.mem_cons_of_mem _ hy)
    simp [pieces, rest, hx x List.mem_cons_self]

theorem pieces_eq_singleton {xs : List α} (hx : ∀ x ∈ xs, separates x = false) :
    pieces separates xs = [xs] := by
  induction xs with
  | nil => rfl
  | cons x xs ih =>
    have rest := ih fun y hy => hx y (List.mem_cons_of_mem _ hy)
    simp [pieces, rest, hx x List.mem_cons_self]

/-- Splits a list at the first separator, which is left out; without one there is no second part.
-/
def splitAt (separates : α → Bool) : List α → List α × Option (List α)
  | [] => ([], none)
  | c :: cs =>
    if separates c then ([], some cs)
    else
      let r := splitAt separates cs
      (c :: r.1, r.2)

end LogicCircuit.Text
