import LogicCircuit.Graph.Traversal

/-!
# Paths

How paths behave when a graph loses edges, is turned around or gains one edge. Read
`acyclic_of_one_more_edge` first: an edge closes no cycle unless its end already leads back to
its start, and this one fact is behind every edit of a circuit that keeps it free of feedback.
-/

namespace LogicCircuit.Graph

variable {α : Type} {g h : Graph α} {a b c : α}

theorem Path.trans (hab : g.Path a b) (hbc : g.Path b c) : g.Path a c := by
  induction hab with
  | edge he => exact .cons he hbc
  | cons he _ ih => exact .cons he (ih hbc)

theorem Path.snoc (hab : g.Path a b) (hc : c ∈ g.next b) : g.Path a c :=
  hab.trans (.edge hc)

theorem Reaches.refl (g : Graph α) (a : α) : g.Reaches a a := .inl rfl

/-- An edge in front of a possibly empty path makes a path. -/
theorem Reaches.cons (hb : b ∈ g.next a) (hbc : g.Reaches b c) : g.Path a c := by
  rcases hbc with rfl | hbc
  · exact .edge hb
  · exact .cons hb hbc

theorem Reaches.trans (hab : g.Reaches a b) (hbc : g.Reaches b c) : g.Reaches a c := by
  rcases hab with rfl | hab
  · exact hbc
  · rcases hbc with rfl | hbc
    · exact .inr hab
    · exact .inr (hab.trans hbc)

/-- A path does not leave nodes that no edge leaves. -/
theorem Path.mem_of_closed {nodes : List α} (hclosed : ∀ a ∈ nodes, ∀ b ∈ g.next a, b ∈ nodes)
    (hab : g.Path a b) (ha : a ∈ nodes) : b ∈ nodes := by
  induction hab with
  | edge he => exact hclosed _ ha _ he
  | cons he _ ih => exact ih (hclosed _ ha _ he)

/-- A graph with all edges of another has its paths. -/
theorem Path.mono (hle : ∀ a, ∀ b ∈ g.next a, b ∈ h.next a) (hab : g.Path a b) : h.Path a b := by
  induction hab with
  | edge he => exact .edge (hle _ _ he)
  | cons he _ ih => exact .cons (hle _ _ he) ih

/-- Turning all edges around turns paths around. -/
theorem Path.reverse (hrev : ∀ a, ∀ b ∈ g.next a, a ∈ h.next b) (hab : g.Path a b) :
    h.Path b a := by
  induction hab with
  | edge he => exact .edge (hrev _ _ he)
  | cons he _ ih => exact ih.snoc (hrev _ _ he)

/-- Without some of its edges a graph still has no cycle. -/
theorem Acyclic.of_le (hg : h.Acyclic) (hle : ∀ a, ∀ b ∈ g.next a, b ∈ h.next a) : g.Acyclic :=
  fun a ha => hg a (ha.mono hle)

/-- A path in a graph with one more edge avoids that edge or leads to its start and on from its
end. -/
theorem Path.avoids_or_uses {s t : α}
    (hedge : ∀ a, ∀ b ∈ h.next a, b ∈ g.next a ∨ a = s ∧ b = t) (hab : h.Path a b) :
    g.Path a b ∨ g.Reaches a s ∧ g.Reaches t b := by
  induction hab with
  | @edge a b he =>
      rcases hedge a b he with he | ⟨rfl, rfl⟩
      · exact .inl (.edge he)
      · exact .inr ⟨.refl g _, .refl g _⟩
  | @cons a b c he _ ih =>
      rcases hedge a b he with he | ⟨rfl, rfl⟩
      · rcases ih with hbc | ⟨hbs, htc⟩
        · exact .inl (.cons he hbc)
        · exact .inr ⟨.inr (hbs.cons he), htc⟩
      · rcases ih with hbc | ⟨_, htc⟩
        · exact .inr ⟨.refl g _, .inr hbc⟩
        · exact .inr ⟨.refl g _, htc⟩

/-- One more edge makes no cycle unless its end already leads to its start. -/
theorem acyclic_of_one_more_edge {s t : α} (hg : g.Acyclic) (hback : ¬ g.Reaches t s)
    (hedge : ∀ a, ∀ b ∈ h.next a, b ∈ g.next a ∨ a = s ∧ b = t) : h.Acyclic := by
  intro a ha
  rcases ha.avoids_or_uses hedge with ha | ⟨has, hta⟩
  · exact hg a ha
  · exact hback (hta.trans has)

end LogicCircuit.Graph
