import LogicCircuit.Proofs.Graph.Path
import Mathlib.Data.List.Chain
import Mathlib.Data.List.Nodup

/-!
# Simple cycles

A cycle is written down as the nodes that it visits, each of them once. Any path between different
nodes can be cut short until it visits no node twice (`Path.exists_simple`). Two things follow: an
edge lies on a cycle exactly if its end leads back to its start (`exists_isCycle_iff`), and a path
needs no edge that ends where it starts (`Path.of_edges_elsewhere`).
-/

namespace LogicCircuit.Graph

variable {α : Type} {g h : Graph α} {a b : α} {nodes : List α}

/-- An edge leads from each node to the next one. -/
def Linked (g : Graph α) (nodes : List α) : Prop := nodes.IsChain fun x y => y ∈ g.next x

/-- Edges lead from `a` through the other nodes, each visited once, and back to `a`. -/
structure IsCycle (g : Graph α) (a : α) (nodes : List α) : Prop where
  /-- The edges. -/
  linked : g.Linked (a :: (nodes ++ [a]))
  /-- No node is visited twice. -/
  nodup : (a :: nodes).Nodup

/-- Linked nodes are a path from the first to the last. -/
theorem Linked.path (hlinked : g.Linked (a :: (nodes ++ [b]))) : g.Path a b := by
  induction nodes generalizing a with
  | nil => exact .edge (List.isChain_cons_cons.1 hlinked).1
  | cons c nodes ih =>
      obtain ⟨hac, hrest⟩ := List.isChain_cons_cons.1 hlinked
      exact .cons hac (ih hrest)

/-- A path between different nodes can be cut short so that it visits no node twice. -/
theorem Path.exists_simple (hab : g.Path a b) (hne : a ≠ b) :
    ∃ nodes, g.Linked (a :: (nodes ++ [b])) ∧ (a :: (nodes ++ [b])).Nodup := by
  have hedge : ∀ {a}, b ∈ g.next a → a ≠ b →
      ∃ nodes, g.Linked (a :: (nodes ++ [b])) ∧ (a :: (nodes ++ [b])).Nodup := fun he hne =>
    ⟨[], List.isChain_pair.2 he, by simpa using hne⟩
  induction hab with
  | edge he => exact hedge he hne
  | @cons a c b he hcb ih =>
      by_cases hc : c = b
      · exact hedge (hc ▸ he) hne
      obtain ⟨nodes, hlinked, hnodup⟩ := ih hc hedge
      by_cases ha : a ∈ c :: nodes
      · -- the path comes back to its start, so what lies before is left out
        obtain ⟨before, after, hsplit⟩ := List.append_of_mem ha
        have hwhole : c :: (nodes ++ [b]) = before ++ a :: (after ++ [b]) := by
          rw [← List.cons_append, hsplit, List.append_assoc, List.cons_append]
        rw [hwhole] at hlinked hnodup
        exact ⟨after, hlinked.right_of_append, (List.nodup_append.1 hnodup).2.1⟩
      · refine ⟨c :: nodes, List.isChain_cons_cons.2 ⟨he, hlinked⟩,
          List.nodup_cons.2 ⟨?_, hnodup⟩⟩
        simpa [or_assoc, hne] using ha

/-- An edge between different nodes lies on a cycle exactly if its end leads back to its start. -/
theorem exists_isCycle_iff (hne : a ≠ b) :
    (∃ nodes, g.IsCycle a (b :: nodes)) ↔ b ∈ g.next a ∧ g.Path b a := by
  constructor
  · rintro ⟨nodes, hcycle⟩
    obtain ⟨hedge, hback⟩ := List.isChain_cons_cons.1 hcycle.linked
    exact ⟨hedge, Linked.path hback⟩
  · rintro ⟨hedge, hback⟩
    obtain ⟨nodes, hlinked, hnodup⟩ := hback.exists_simple hne.symm
    refine ⟨nodes, List.isChain_cons_cons.2 ⟨hedge, hlinked⟩, ?_⟩
    exact (List.perm_append_singleton a (b :: nodes)).nodup_iff.1 hnodup

/-- A path between different nodes needs no edge that ends at its start. -/
theorem Path.of_edges_elsewhere (hab : g.Path a b) (hne : a ≠ b)
    (hedges : ∀ x, ∀ y ∈ g.next x, y ≠ a → y ∈ h.next x) : h.Path a b := by
  obtain ⟨nodes, hlinked, hnodup⟩ := hab.exists_simple hne
  have hstart : ∀ y ∈ nodes ++ [b], y ≠ a := fun y hy e =>
    (List.nodup_cons.1 hnodup).1 (e ▸ hy)
  refine Linked.path (List.IsChain.imp_of_mem_tail_imp ?_ hlinked)
  exact fun x y _ hy he => hedges x y he (hstart y hy)

end LogicCircuit.Graph
