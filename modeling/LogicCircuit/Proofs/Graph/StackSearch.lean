import LogicCircuit.Proofs.Graph.Worklist

/-!
# A search for cycles with a stack

The search keeps its open nodes on a stack, each with the index of the neighbour that it looks at
next, and beside the stack the set of open nodes and the set of nodes that are done. It moves one
step at a time and stops at the first open node that it comes back to. Nothing in a step says that
this ends. It does, with the first node that `Traversal.visit` meets again: the search does what
the walk does (`Follows`), and the walk is an induction on the room that is left below the open
nodes. The result for a whole search is `stops_start_iff`.
-/

namespace LogicCircuit

variable {α : Type}

/-- A search between two moves. -/
structure StackSearch (α : Type) where
  /-- The nodes that the search has yet to start from. -/
  starts : List α
  /-- The open nodes, the last one first, each with the index of the neighbour that is next. -/
  stack : List (α × Nat) := []
  /-- The nodes that are on the stack. -/
  onPath : List α := []
  /-- The nodes whose neighbours have all been looked at. -/
  done : List α := []

namespace StackSearch

open Traversal

variable [DecidableEq α]

/-- One move: the search stops with an answer or goes on. It looks at the next neighbour of the
node on top of the stack, and closes that node if there is none; with nothing on the stack it
takes the next start. -/
def step (g : Graph α) (s : StackSearch α) : Option α ⊕ StackSearch α :=
  match s.stack with
  | [] =>
      match s.starts with
      | [] => .inl none
      | a :: starts =>
          if a ∈ s.done then .inr { s with starts }
          else .inr { s with starts, stack := [(a, 0)], onPath := a :: s.onPath }
  | (a, i) :: below =>
      match (g.next a)[i]? with
      | some b =>
          if b ∈ s.onPath then .inl (some b)
          else if b ∈ s.done then .inr { s with stack := (a, i + 1) :: below }
          else .inr { s with stack := (b, 0) :: (a, i + 1) :: below, onPath := b :: s.onPath }
      | none =>
          .inr { s with stack := below, onPath := s.onPath.erase a, done := s.done ++ [a] }

/-- The search before its first move. -/
def start (starts : List α) : StackSearch α := { starts }

variable {g : Graph α} {s s' s'' : StackSearch α} {answer : Option α} {t u : Traversal α}
  {a b : α} {i : Nat} {path starts : List α} {below : List (α × Nat)}

/-- From `s` the search does what a walk does that ends as `t`: it answers the first node that the
walk has met, and where the walk has met none it comes to `s'`. -/
def Follows (g : Graph α) (s : StackSearch α) (t : Traversal α) (s' : StackSearch α) : Prop :=
  match t.returns with
  | [] => ∀ r, Stops (step g) s' r → Stops (step g) s r
  | b :: _ => Stops (step g) s (some b)

theorem follows_of_nil (hnone : t.returns = []) :
    Follows g s t s' ↔ ∀ r, Stops (step g) s' r → Stops (step g) s r := by
  unfold Follows
  rw [hnone]

theorem follows_of_cons {met : List α} (hmet : t.returns = b :: met) :
    Follows g s t s' ↔ Stops (step g) s (some b) := by
  unfold Follows
  rw [hmet]

theorem Follows.refl (hnone : t.returns = []) : Follows g s t s :=
  (follows_of_nil hnone).2 fun _ hr => hr

/-- What a search follows is a matter of what the walk has met. -/
theorem Follows.congr (h : Follows g s t s') (hmet : t.returns = u.returns) :
    Follows g s u s' := by
  unfold Follows at h ⊢
  rwa [← hmet]

/-- A move in front. -/
theorem Follows.after_move (hstep : s.step g = .inr s') (h : Follows g s' t s'') :
    Follows g s t s'' := by
  cases hmet : t.returns with
  | nil => exact (follows_of_nil hmet).2 fun r hr => .move hstep ((follows_of_nil hmet).1 h r hr)
  | cons b met => exact (follows_of_cons hmet).2 (.move hstep ((follows_of_cons hmet).1 h))

/-- One walk after another; the second one matters if nothing has been met in the first. -/
theorem Follows.trans (h : Follows g s t s') (hgrow : t.returns <+: u.returns)
    (h' : t.returns = [] → Follows g s' u s'') : Follows g s u s'' := by
  cases hmet : t.returns with
  | cons b met =>
      obtain ⟨more, hmore⟩ := hgrow
      rw [hmet, List.cons_append] at hmore
      exact (follows_of_cons hmore.symm).2 ((follows_of_cons hmet).1 h)
  | nil =>
      have hback := (follows_of_nil hmet).1 h
      cases hmet' : u.returns with
      | nil =>
          exact (follows_of_nil hmet').2 fun r hr =>
            hback r ((follows_of_nil hmet').1 (h' hmet) r hr)
      | cons b met =>
          exact (follows_of_cons hmet').2 (hback _ ((follows_of_cons hmet').1 (h' hmet)))

/-! ## One node at a time -/

/-- A move looks at the next neighbour and passes over one that is done. -/
theorem step_done {done : List α} (hb : (g.next a)[i]? = some b) (hopen : b ∉ path)
    (hdone : b ∈ done) :
    step g ⟨starts, (a, i) :: below, path, done⟩ =
      .inr ⟨starts, (a, i + 1) :: below, path, done⟩ := by
  simp [step, hb, hopen, hdone]

/-- It opens one that it sees for the first time. -/
theorem step_new {done : List α} (hb : (g.next a)[i]? = some b) (hopen : b ∉ path)
    (hdone : b ∉ done) :
    step g ⟨starts, (a, i) :: below, path, done⟩ =
      .inr ⟨starts, (b, 0) :: (a, i + 1) :: below, b :: path, done⟩ := by
  simp [step, hb, hopen, hdone]

/-- It stops at one that is open. -/
theorem step_open {done : List α} (hb : (g.next a)[i]? = some b) (hopen : b ∈ path) :
    step g ⟨starts, (a, i) :: below, path, done⟩ = .inl (some b) := by
  simp [step, hb, hopen]

/-- After its neighbours a node is closed itself. -/
theorem step_close {done : List α} (hnone : (g.next a)[i]? = none) :
    step g ⟨starts, (a, i) :: below, a :: path, done⟩ =
      .inr ⟨starts, below, path, done ++ [a]⟩ := by
  simp [step, hnone]

/-- A step of a fold of walks adds to what has been met. -/
theorem returns_visit_isPrefix (hg : g.Supported) (hbelow : Below g path (b :: starts) t) :
    (visit g path t b).returns <+: ((b :: starts).foldl (visit g path) t).returns := by
  have hsplit : Below g path ([b] ++ starts) t := hbelow
  obtain ⟨new, met, hfirst, hexp⟩ := explores_visit hg path t b hsplit.left
  obtain ⟨new', met', hlater, -⟩ := explores_foldl hg path starts _ (hsplit.after hexp)
  rw [List.foldl_cons, hfirst, hlater]
  exact List.prefix_append _ _

/-- The search that has just opened one of the nodes `targets` follows the walk from there. -/
def FollowsFrom (g : Graph α) (starts path targets : List α) : Prop :=
  ∀ t, ∀ b ∈ targets, ∀ below, t.returns = [] → Below g path [b] t → b ∉ t.closed → b ∉ path →
    Follows g ⟨starts, (b, 0) :: below, b :: path, t.closed⟩ (visit g path t b)
      ⟨starts, below, path, (visit g path t b).closed⟩

/-- The search at a neighbour follows the walk from there, whether it is done, open or new. -/
theorem FollowsFrom.neighbor (hopens : FollowsFrom g starts path (g.next a))
    (hb : (g.next a)[i]? = some b) (ht : t.returns = []) (hbelow : Below g path [b] t) :
    Follows g ⟨starts, (a, i) :: below, path, t.closed⟩ (visit g path t b)
      ⟨starts, (a, i + 1) :: below, path, (visit g path t b).closed⟩ := by
  by_cases hclosed : b ∈ t.closed
  · have hopen : b ∉ path := fun hp => hbelow.not_closed b hp hclosed
    rw [visit, if_pos hclosed]
    exact .after_move (step_done hb hopen hclosed) (.refl ht)
  by_cases hopen : b ∈ path
  · rw [visit, if_neg hclosed, dif_pos hopen]
    have hmet : t.returns ++ [b] = b :: [] := by rw [ht, List.nil_append]
    exact (follows_of_cons hmet).2 (.stop (step_open hb hopen))
  · exact .after_move (step_new hb hopen hclosed)
      (hopens t b (List.mem_of_getElem? hb) _ ht hbelow hclosed hopen)

/-- The search along the neighbours that are left follows the walks from them in turn, and then
closes the node. -/
theorem FollowsFrom.neighbors (hg : g.Supported)
    (hopens : FollowsFrom g starts (a :: path) (g.next a)) {rest : List α}
    (hrest : (g.next a).drop i = rest) (ht : t.returns = [])
    (hbelow : Below g (a :: path) rest t) :
    Follows g ⟨starts, (a, i) :: below, a :: path, t.closed⟩ (rest.foldl (visit g (a :: path)) t)
      ⟨starts, below, path, (rest.foldl (visit g (a :: path)) t).closed ++ [a]⟩ := by
  induction rest generalizing i t with
  | nil =>
      have hnone : (g.next a)[i]? = none := List.getElem?_eq_none (List.drop_eq_nil_iff.1 hrest)
      exact .after_move (step_close hnone) (.refl ht)
  | cons b rest ih =>
      have hb : (g.next a)[i]? = some b := by
        rw [← List.head?_drop, hrest, List.head?_cons]
      have hlater : (g.next a).drop (i + 1) = rest := by
        rw [← List.tail_drop, hrest, List.tail_cons]
      have hsplit : Below g (a :: path) ([b] ++ rest) t := hbelow
      obtain ⟨new, met, hfirst, hexp⟩ := explores_visit hg (a :: path) t b hsplit.left
      refine (hopens.neighbor hb ht hsplit.left).trans (returns_visit_isPrefix hg hbelow) ?_
      intro hnone
      rw [List.foldl_cons]
      refine ih hlater hnone ?_
      rw [hfirst]
      exact hsplit.after hexp

/-- The search that has just opened a node follows the walk from there. The path grows by a node
at each level, so the induction is on the room that is left. -/
theorem followsFrom (hg : g.Supported) (path targets : List α) :
    FollowsFrom g starts path targets := by
  induction hroom : room g path using Nat.strongRecOn generalizing path targets with
  | ind n ih =>
      intro t a _ below ht hbelow hclosed hpath
      have hopens : FollowsFrom g starts (a :: path) (g.next a) := by
        by_cases ha : a ∈ g.nodes
        · exact ih _ (hroom ▸ room_cons_lt ha hpath) (a :: path) (g.next a) rfl
        · rw [hg a ha]
          exact fun _ b hb => nomatch hb
      rw [visit_of_new hg hclosed hpath]
      exact (hopens.neighbors hg List.drop_zero ht (hbelow.open_node hclosed)).congr rfl

/-- The search from the nodes that are left follows the walks from them in turn. -/
theorem follows_starts (hg : g.Supported) (starts : List α) (t : Traversal α)
    (ht : t.returns = []) : Follows g ⟨starts, [], [], t.closed⟩ (starts.foldl (visit g []) t)
      ⟨[], [], [], (starts.foldl (visit g []) t).closed⟩ := by
  induction starts generalizing t with
  | nil => exact .refl ht
  | cons a starts ih =>
      have hbelow : ∀ more, Below g [] more t := fun more => ⟨by simp, by simp⟩
      have hfollows : Follows g ⟨a :: starts, [], [], t.closed⟩ (visit g [] t a)
          ⟨starts, [], [], (visit g [] t a).closed⟩ := by
        by_cases hclosed : a ∈ t.closed
        · rw [visit, if_pos hclosed]
          exact .after_move (by simp [step, hclosed]) (.refl ht)
        · exact .after_move (by simp [step, hclosed])
            (followsFrom hg [] [a] t a (by simp) [] ht (hbelow [a]) hclosed List.not_mem_nil)
      exact hfollows.trans (returns_visit_isPrefix hg (hbelow _)) (ih _)

/-- The search from some nodes comes to an end, and its only answer is the first node that the
walk from them meets again. -/
theorem stops_start_iff (hg : g.Supported) :
    Stops (step g) (start starts) answer ↔ answer = (ofStarts g starts).returns.head? := by
  have hfollows : Follows g (start starts) (ofStarts g starts)
      ⟨[], [], [], (ofStarts g starts).closed⟩ := follows_starts hg starts {} rfl
  have hanswer : Stops (step g) (start starts) (ofStarts g starts).returns.head? := by
    cases hmet : (ofStarts g starts).returns with
    | nil => exact (follows_of_nil hmet).1 hfollows none (.stop rfl)
    | cons b met => exact (follows_of_cons hmet).1 hfollows
  constructor
  · exact fun hr => hr.unique hanswer
  · rintro rfl
    exact hanswer

end StackSearch

end LogicCircuit
