import LogicCircuit.Proofs.Graph.DepthFirst

/-!
# A search with a worklist

The search for a way from one node to another takes nodes off a stack, passes over those that it
has seen and puts the neighbours of the others on it, until it takes off the goal or the stack is
empty. `Searches` is what every move keeps: the nodes on the stack can be reached, and nothing is
lost. With it `exists_stops` shows that the search comes to an end with the right answer: a move
leaves fewer nodes unseen or a shorter stack. `stops_start_iff` is the result for a whole search.
-/

namespace LogicCircuit

/-- A machine that moves by `step` comes to an end with an answer. -/
inductive Stops {σ ρ : Type} (step : σ → ρ ⊕ σ) : σ → ρ → Prop
  | stop {s : σ} {r : ρ} (hstep : step s = .inl r) : Stops step s r
  | move {s s' : σ} {r : ρ} (hstep : step s = .inr s') (hrest : Stops step s' r) : Stops step s r

/-- A machine has one answer. -/
theorem Stops.unique {σ ρ : Type} {step : σ → ρ ⊕ σ} {s : σ} {r r' : ρ} (h : Stops step s r)
    (h' : Stops step s r') : r = r' := by
  induction h with
  | stop hstep =>
      cases h' with
      | stop hstep' => exact Sum.inl.inj (hstep.symm.trans hstep')
      | move hstep' _ => exact nomatch hstep.symm.trans hstep'
  | move hstep _ ih =>
      cases h' with
      | stop hstep' => exact nomatch hstep.symm.trans hstep'
      | move hstep' hrest' =>
          obtain rfl := Sum.inr.inj (hstep.symm.trans hstep')
          exact ih hrest'

/-- A search with a worklist between two moves. -/
structure Worklist (α : Type) where
  /-- The nodes to look at, the next one first. -/
  stack : List α
  /-- The nodes whose neighbours have been put on the stack. -/
  visited : List α := []

namespace Worklist

variable {α : Type}

/-- The search before its first move. -/
def start (a : α) : Worklist α := { stack := [a] }

/-- One move: the search looks at the node on top of the stack. -/
def step [DecidableEq α] (g : Graph α) (goal : α) (s : Worklist α) : Bool ⊕ Worklist α :=
  match s.stack with
  | [] => .inl false
  | a :: rest =>
      if a = goal then .inl true
      else if a ∈ s.visited then .inr { s with stack := rest }
      else .inr ⟨(g.next a).reverse ++ rest, a :: s.visited⟩

variable {g : Graph α} {a b goal : α} {s : Worklist α} {answer : Bool} {rest visited : List α}

/-- What a search from `a` keeps. -/
structure Searches (g : Graph α) (a goal : α) (s : Worklist α) : Prop where
  /-- What is still to be looked at can be reached. -/
  reached : ∀ b ∈ s.stack, g.Reaches a b
  /-- The start has not been lost. -/
  origin : a ∈ s.visited ∨ a ∈ s.stack
  /-- The neighbours of a visited node have not been lost either. -/
  closed : ∀ b ∈ s.visited, ∀ d ∈ g.next b, d ∈ s.visited ∨ d ∈ s.stack
  /-- The goal is not passed over. -/
  missed : goal ∉ s.visited

theorem searches_start (g : Graph α) (a goal : α) : Searches g a goal (start a) where
  reached := by simpa [start] using Graph.Reaches.refl g a
  origin := .inr (List.mem_singleton_self a)
  closed := by simp [start]
  missed := by simp [start]

/-- With nothing left to look at, what can be reached has been visited, and the goal has not. -/
theorem Searches.not_reaches (h : Searches g a goal ⟨[], visited⟩) : ¬ g.Reaches a goal := by
  have hclosed : ∀ b ∈ visited, ∀ d ∈ g.next b, d ∈ visited := fun b hb d hd =>
    (h.closed b hb d hd).resolve_right List.not_mem_nil
  have horigin : a ∈ visited := h.origin.resolve_right List.not_mem_nil
  intro hgoal
  rcases hgoal with rfl | hgoal
  · exact h.missed horigin
  · exact h.missed (hgoal.mem_of_closed hclosed horigin)

/-- A node that has been visited is passed over. -/
theorem Searches.skip (h : Searches g a goal ⟨b :: rest, visited⟩) (hb : b ∈ visited) :
    Searches g a goal ⟨rest, visited⟩ := by
  have hkept : ∀ {d}, d ∈ visited ∨ d ∈ b :: rest → d ∈ visited ∨ d ∈ rest := by
    intro d hd
    rcases hd with hd | hd
    · exact .inl hd
    · rcases List.mem_cons.1 hd with rfl | hd
      · exact .inl hb
      · exact .inr hd
  exact ⟨fun d hd => h.reached d (List.mem_cons_of_mem _ hd), hkept h.origin,
    fun d hd e he => hkept (h.closed d hd e he), h.missed⟩

/-- A node that is seen for the first time leaves its neighbours on the stack. -/
theorem Searches.visit (h : Searches g a goal ⟨b :: rest, visited⟩) (hb : b ≠ goal) :
    Searches g a goal ⟨(g.next b).reverse ++ rest, b :: visited⟩ := by
  have hkept : ∀ {d}, d ∈ visited ∨ d ∈ b :: rest →
      d ∈ b :: visited ∨ d ∈ (g.next b).reverse ++ rest := by
    intro d hd
    rcases hd with hd | hd
    · exact .inl (List.mem_cons_of_mem _ hd)
    · rcases List.mem_cons.1 hd with rfl | hd
      · exact .inl List.mem_cons_self
      · exact .inr (List.mem_append_right _ hd)
  refine ⟨?reached, hkept h.origin, ?closed, ?missed⟩
  case reached =>
    intro d hd
    rcases List.mem_append.1 hd with hd | hd
    · have hedge : g.Path b d := .edge (List.mem_reverse.1 hd)
      exact (h.reached b List.mem_cons_self).trans (.inr hedge)
    · exact h.reached d (List.mem_cons_of_mem _ hd)
  case closed =>
    intro d hd e he
    rcases List.mem_cons.1 hd with rfl | hd
    · exact .inr (List.mem_append_left _ (List.mem_reverse.2 he))
    · exact hkept (h.closed d hd e he)
  case missed =>
    intro hgoal
    rcases List.mem_cons.1 hgoal with rfl | hgoal
    · exact hb rfl
    · exact h.missed hgoal

variable [DecidableEq α]

/-- A visit leaves fewer nodes to visit or, where no edge leaves the node, a shorter stack. -/
theorem work_lt (hg : g.Supported) (hb : b ∉ visited) :
    Prod.Lex (· < ·) (· < ·)
      (Traversal.room g (b :: visited), ((g.next b).reverse ++ rest).length)
      (Traversal.room g visited, (b :: rest).length) := by
  by_cases hnode : b ∈ g.nodes
  · exact .left _ _ (Traversal.room_cons_lt hnode hb)
  · have hroom : Traversal.room g (b :: visited) = Traversal.room g visited := by
      refine List.countP_congr fun d hd => ?_
      have hne : d ≠ b := fun e => hnode (e ▸ hd)
      simp [hne]
    rw [hroom, hg b hnode]
    exact .right _ (Nat.lt_succ_self _)

/-- The search comes to an end and has found the goal exactly if it can be reached. -/
theorem exists_stops (hg : g.Supported) : ∀ stack visited, Searches g a goal ⟨stack, visited⟩ →
    ∃ answer, Stops (step g goal) ⟨stack, visited⟩ answer ∧ (answer = true ↔ g.Reaches a goal)
  | [], _, h => ⟨false, .stop rfl, iff_of_false Bool.false_ne_true h.not_reaches⟩
  | b :: rest, visited, h => by
      by_cases hgoal : b = goal
      · exact ⟨true, .stop (if_pos hgoal),
          iff_of_true rfl (hgoal ▸ h.reached b List.mem_cons_self)⟩
      by_cases hb : b ∈ visited
      · obtain ⟨answer, hstops, hanswer⟩ := exists_stops hg rest visited (h.skip hb)
        exact ⟨answer, .move (by simp [step, hgoal, hb]) hstops, hanswer⟩
      · obtain ⟨answer, hstops, hanswer⟩ :=
          exists_stops hg ((g.next b).reverse ++ rest) (b :: visited) (h.visit hgoal)
        exact ⟨answer, .move (by simp [step, hgoal, hb]) hstops, hanswer⟩
termination_by stack visited => (Traversal.room g visited, stack.length)
decreasing_by
  · exact .right _ (Nat.lt_succ_self _)
  · exact work_lt hg hb

/-- The search from a node comes to an end, and its only answer is whether the goal can be reached
from there. -/
theorem stops_start_iff (hg : g.Supported) :
    Stops (step g goal) (start a) answer ↔ (answer = true ↔ g.Reaches a goal) := by
  obtain ⟨found, hstops, hfound⟩ := exists_stops hg [a] [] (searches_start g a goal)
  constructor
  · intro hanswer
    rwa [hanswer.unique hstops]
  · intro hanswer
    have hsame : answer = found := Bool.eq_iff_iff.2 (hanswer.trans hfound.symm)
    rwa [hsame]

end Worklist

end LogicCircuit
