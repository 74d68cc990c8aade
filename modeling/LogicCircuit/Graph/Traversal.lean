/-!
# Depth-first traversal

A graph is given by the list of its nodes and the neighbours of each node. `Traversal.visit` walks
it depth first and keeps two lists: the nodes in the order in which their neighbours were done,
and the nodes that were met again while they were still open. Every use of depth-first search in
the library is this one walk: the evaluation order follows drivers, the search for a cycle follows
readers, and a node can be reached exactly if the walk from the start closes it.

`Path` is the relation that the walk is compared with.
-/

namespace LogicCircuit

/-- A directed graph: its nodes, and for each node the nodes that its edges lead to. -/
structure Graph (α : Type) where
  /-- The nodes. -/
  nodes : List α
  /-- The ends of the edges that leave a node, in the order in which a walk takes them. -/
  next : α → List α

namespace Graph

variable {α : Type}

/-- One or more edges lead from `a` to `b`. -/
inductive Path (g : Graph α) : α → α → Prop where
  | edge {a b} : b ∈ g.next a → Path g a b
  | cons {a b c} : b ∈ g.next a → Path g b c → Path g a c

/-- Some edges, possibly none, lead from `a` to `b`. -/
def Reaches (g : Graph α) (a b : α) : Prop := a = b ∨ g.Path a b

/-- No edges lead from a node back to itself. -/
def Acyclic (g : Graph α) : Prop := ∀ a, ¬ g.Path a a

end Graph

/-- What a depth-first walk has found so far. -/
structure Traversal (α : Type) where
  /-- The nodes that are done, in the order in which they were. -/
  closed : List α := []
  /-- The nodes that were met again while they were open, in the order of those meetings. -/
  returns : List α := []
  deriving DecidableEq, Repr

namespace Traversal

variable {α : Type}

theorem countP_lt_countP {p q : α → Bool} {xs : List α} {a : α} (h : ∀ x, p x → q x)
    (ha : a ∈ xs) (hp : p a = false) (hq : q a) : xs.countP p < xs.countP q := by
  induction xs with
  | nil => cases ha
  | cons x xs ih =>
    have le : xs.countP p ≤ xs.countP q := List.countP_mono_left fun x _ => h x
    rcases List.mem_cons.1 ha with rfl | ha
    · simp only [List.countP_cons, hp, hq, ite_true]
      simpa using Nat.lt_succ_of_le le
    · have lt := ih ha
      simp only [List.countP_cons]
      by_cases hx : p x
      · simp only [hx, h x hx, ite_true]
        omega
      · simp only [hx]
        grind

variable [DecidableEq α]

/-- The number of nodes that are not on the path; it bounds the depth that the walk can still
reach. -/
def room (g : Graph α) (path : List α) : Nat := g.nodes.countP fun a => a ∉ path

theorem room_cons_lt {g : Graph α} {path : List α} {a : α} (hn : a ∈ g.nodes) (hp : a ∉ path) :
    room g (a :: path) < room g path :=
  countP_lt_countP
    (by simp only [List.mem_cons, not_or, decide_eq_true_eq]; exact fun _ h => h.2) hn
    (by simp) (by simpa using hp)

/-- Walks from a node, below the open nodes of `path`. A closed node is passed over and an open
one is noted; any other is opened, its neighbours are visited in turn, and then it is closed. -/
def visit (g : Graph α) (path : List α) (t : Traversal α) (a : α) : Traversal α :=
  if a ∈ t.closed then t
  else if _met : a ∈ path then { t with returns := t.returns ++ [a] }
  else if _node : a ∈ g.nodes then
    -- the path grows by a node that was not on it, so there is less room below
    let done := (g.next a).foldl (fun t b => visit g (a :: path) t b) t
    { done with closed := done.closed ++ [a] }
  else { t with closed := t.closed ++ [a] }
termination_by room g path
decreasing_by exact room_cons_lt _node _met

/-- Walks from each of the given nodes in turn. -/
def ofStarts (g : Graph α) (starts : List α) : Traversal α :=
  starts.foldl (visit g []) {}

end Traversal

end LogicCircuit
