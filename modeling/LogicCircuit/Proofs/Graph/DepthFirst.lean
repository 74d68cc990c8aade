import LogicCircuit.Proofs.Graph.Path
import Mathlib.Algebra.GroupWithZero.Nat
import Mathlib.Data.List.Nodup

/-!
# What a depth-first walk finds

`Traversal.visit` keeps the nodes that it has closed and the nodes that it met again while they
were open. `Explores` says what a walk adds to the two lists: no node is closed twice, every edge
of a newly closed node leads to a node closed before it or is one of the meetings, and every
meeting lies on a cycle. The four ways in which a walk goes on each keep it (`Explores.of_closed`,
`Explores.of_open`, `Explores.close` and `Explores.append`), and what they keep holds of every
walk (`Kept.visit`). For a whole walk the results are `mem_closed_ofStarts_iff`, which nodes it
closes, and `returns_ofStarts_eq_nil_iff`, that it meets no open node exactly if it saw no cycle.
-/

namespace LogicCircuit

variable {α : Type}

/-- Every edge of the graph leaves one of its nodes. -/
def Graph.Supported (g : Graph α) : Prop := ∀ a ∉ g.nodes, g.next a = []

variable [DecidableEq α]

/-- `b` comes before `a` in a list that holds `b`; a name that is not listed comes after all. -/
def Precedes (xs : List α) (b a : α) : Prop := xs.idxOf b < xs.idxOf a

instance (xs : List α) (b a : α) : Decidable (Precedes xs b a) :=
  inferInstanceAs (Decidable (_ < _))

/-- What comes first is listed. -/
theorem Precedes.mem {xs : List α} {a b : α} (h : Precedes xs b a) : b ∈ xs :=
  List.idxOf_lt_length_iff.1 (Nat.lt_of_lt_of_le h List.idxOf_le_length)

theorem not_precedes_self (xs : List α) (a : α) : ¬ Precedes xs a a := Nat.lt_irrefl _

theorem Precedes.trans {xs : List α} {a b c : α} (hab : Precedes xs a b) (hbc : Precedes xs b c) :
    Precedes xs a c := Nat.lt_trans hab hbc

/-- Of two different listed names one comes first. -/
theorem precedes_or_precedes {xs : List α} {a b : α} (ha : a ∈ xs) (hne : a ≠ b) :
    Precedes xs a b ∨ Precedes xs b a := by
  have hidx : xs.idxOf a ≠ xs.idxOf b := fun h => hne ((List.idxOf_inj ha).1 h)
  exact Nat.lt_or_gt_of_ne hidx

/-- A listed name comes before another one exactly if that one does not come before it. -/
theorem not_precedes_iff {xs : List α} {a b : α} (ha : a ∈ xs) (hne : a ≠ b) :
    ¬ Precedes xs b a ↔ Precedes xs a b := by
  constructor
  · exact fun hnot => (precedes_or_precedes ha hne).resolve_right hnot
  · exact fun hab hba => not_precedes_self xs a (hab.trans hba)

/-- What is listed later does not change what comes before a listed name. -/
theorem precedes_append {xs : List α} {a : α} (ha : a ∈ xs) (ys : List α) (b : α) :
    Precedes (xs ++ ys) b a ↔ Precedes xs b a := by
  have hlt := List.idxOf_lt_length_of_mem ha
  unfold Precedes
  rw [List.idxOf_append_of_mem ha]
  by_cases hb : b ∈ xs
  · rw [List.idxOf_append_of_mem hb]
  · rw [List.idxOf_append_of_notMem hb, List.idxOf_eq_length hb]
    omega

/-- Before the name that a list ends with comes all the rest. -/
theorem precedes_append_singleton {xs : List α} {a : α} (ha : a ∉ xs) (b : α) :
    Precedes (xs ++ [a]) b a ↔ b ∈ xs := by
  unfold Precedes
  rw [List.idxOf_append_of_notMem ha, List.idxOf_cons_self]
  constructor
  · intro h
    by_contra hb
    rw [List.idxOf_append_of_notMem hb] at h
    omega
  · intro hb
    rw [List.idxOf_append_of_mem hb]
    exact Nat.lt_of_lt_of_le (List.idxOf_lt_length_of_mem hb) (Nat.le_add_right _ _)

namespace Traversal

/-- How many edges lead from a node to one that is not listed before it. -/
def lateEdges (g : Graph α) (order : List α) (a : α) : Nat :=
  (g.next a).countP fun b => ¬ Precedes order b a

/-- A walk from the nodes `starts`, below the open nodes of `path`, closes `new` and meets `met`.
-/
structure Explores (g : Graph α) (path : List α) (starts : List α) (t : Traversal α)
    (new met : List α) : Prop where
  /-- No node is closed twice. -/
  nodup : new.Nodup
  /-- Neither what was closed before nor what is open is closed. -/
  fresh : ∀ a ∈ new, a ∉ t.closed ∧ a ∉ path
  /-- Every start is closed in the end, or is open and has been met. -/
  done : ∀ a ∈ starts, a ∈ t.closed ++ new ∨ a ∈ path ∧ a ∈ met
  /-- Only what can be reached is closed. -/
  reached : ∀ b ∈ new, ∃ a ∈ starts, g.Reaches a b
  /-- What is met again is open or has been closed since. -/
  met_open : ∀ b ∈ met, b ∈ path ∨ b ∈ new
  /-- What is met again lies on a cycle. -/
  met_cycle : ∀ b ∈ met, g.Path b b
  /-- An edge of a closed node leads to one that was closed before, or to one that was met. -/
  edges : ∀ a ∈ new, ∀ b ∈ g.next a, Precedes (t.closed ++ new) b a ∨ b ∈ met
  /-- There is one meeting for each edge to an open node. -/
  count : met.length =
    starts.countP (fun a => a ∈ path) + (new.map (lateEdges g (t.closed ++ new))).sum

/-- The open nodes of a walk: none of them is closed, and all of them lead to what comes next. -/
structure Below (g : Graph α) (path : List α) (starts : List α) (t : Traversal α) : Prop where
  not_closed : ∀ a ∈ path, a ∉ t.closed
  leads : ∀ a ∈ path, ∀ b ∈ starts, g.Path a b

variable {g : Graph α} {path starts new met : List α} {t : Traversal α} {a : α}

theorem Explores.nil : Explores g path [] t [] [] where
  nodup := List.nodup_nil
  fresh := by simp
  done := by simp
  reached := by simp
  met_open := by simp
  met_cycle := by simp
  edges := by simp
  count := rfl

/-- A closed node is passed over. -/
theorem Explores.of_closed (ha : a ∈ t.closed) (hbelow : Below g path [a] t) :
    Explores g path [a] t [] [] where
  nodup := List.nodup_nil
  fresh := by simp
  done := by simp [ha]
  reached := by simp
  met_open := by simp
  met_cycle := by simp
  edges := by simp
  count := by
    have hopen : a ∉ path := fun hp => hbelow.not_closed a hp ha
    simp [hopen]

/-- An open node is noted. -/
theorem Explores.of_open (ha : a ∈ path) (hbelow : Below g path [a] t) :
    Explores g path [a] t [] [a] where
  nodup := List.nodup_nil
  fresh := by simp
  done := by simp [ha]
  reached := by simp
  met_open := by simpa using ha
  met_cycle := by simpa using hbelow.leads a ha a (List.mem_singleton_self a)
  edges := by simp
  count := by simp [ha]

/-- The same node counts the same late edges in every longer list. -/
theorem lateEdges_append (ha : a ∈ starts) (later : List α) :
    lateEdges g (starts ++ later) a = lateEdges g starts a := by
  unfold lateEdges
  simp only [precedes_append ha]

/-- What has been explored is not open. -/
theorem Explores.not_open (h : Explores g path starts t new met) (hbelow : Below g path starts t)
    (ha : a ∈ t.closed ++ new) : a ∉ path := by
  rcases List.mem_append.1 ha with ha | ha
  · exact fun hp => hbelow.not_closed a hp ha
  · exact (h.fresh a ha).2

/-- The edges of a node that are late when it is closed are those to open nodes. -/
theorem Explores.lateEdges_eq (h : Explores g (a :: path) (g.next a) t new met)
    (hbelow : Below g (a :: path) (g.next a) t) (ha : a ∉ t.closed ++ new) :
    lateEdges g ((t.closed ++ new) ++ [a]) a = (g.next a).countP fun b => b ∈ a :: path := by
  refine List.countP_congr fun b hb => ?_
  simp only [decide_eq_true_eq, precedes_append_singleton ha]
  constructor
  · exact fun hnot => ((h.done b hb).resolve_left hnot).1
  · exact fun hopen hmem => h.not_open hbelow hmem hopen

/-- After its neighbours a node is closed itself. -/
theorem Explores.close (h : Explores g (a :: path) (g.next a) t new met)
    (hbelow : Below g (a :: path) (g.next a) t) (hpath : a ∉ path) :
    Explores g path [a] t (new ++ [a]) met := by
  have hnew : a ∉ new := fun ha => (h.fresh a ha).2 List.mem_cons_self
  have hclosed : a ∉ t.closed := hbelow.not_closed a List.mem_cons_self
  have hlist : a ∉ t.closed ++ new := by simp [hclosed, hnew]
  have hassoc : t.closed ++ (new ++ [a]) = (t.closed ++ new) ++ [a] := by simp
  refine ⟨?nodup, ?fresh, by simp, ?reached, ?met_open, h.met_cycle, ?edges, ?count⟩
  case nodup => simpa [List.nodup_append] using ⟨h.nodup, fun b hb e => hnew (e ▸ hb)⟩
  case fresh =>
    intro b hb
    rcases List.mem_append.1 hb with hb | hb
    · exact ⟨(h.fresh b hb).1, fun hp => (h.fresh b hb).2 (List.mem_cons_of_mem _ hp)⟩
    · obtain rfl := List.mem_singleton.1 hb
      exact ⟨hclosed, hpath⟩
  case reached =>
    intro b hb
    refine ⟨a, List.mem_singleton_self a, ?_⟩
    rcases List.mem_append.1 hb with hb | hb
    · obtain ⟨c, hc, hcb⟩ := h.reached b hb
      exact .inr (hcb.cons hc)
    · exact .inl (List.mem_singleton.1 hb).symm
  case met_open =>
    intro b hb
    rcases h.met_open b hb with hb | hb
    · rcases List.mem_cons.1 hb with rfl | hb
      · exact .inr (by simp)
      · exact .inl hb
    · exact .inr (List.mem_append_left _ hb)
  case edges =>
    intro b hb c hc
    rw [hassoc]
    rcases List.mem_append.1 hb with hb | hb
    · rw [precedes_append (List.mem_append_right _ hb)]
      exact h.edges b hb c hc
    · obtain rfl := List.mem_singleton.1 hb
      rw [precedes_append_singleton hlist]
      exact (h.done c hc).imp_right And.right
  case count =>
    -- the node itself is late for its meetings, and nothing changes for those closed before it
    have hsum : (new.map (lateEdges g ((t.closed ++ new) ++ [a]))).sum =
        (new.map (lateEdges g (t.closed ++ new))).sum := by
      refine congrArg List.sum (List.map_congr_left fun b hb => ?_)
      exact lateEdges_append (List.mem_append_right _ hb) [a]
    rw [h.count, hassoc, List.map_append, List.sum_append, hsum, List.map_singleton,
      List.sum_singleton, h.lateEdges_eq hbelow hlist]
    simp only [List.countP_singleton, hpath, decide_false, Bool.false_eq_true, if_false]
    omega

/-- One walk after another is a walk from the starts of both. -/
theorem Explores.append {more new' met' : List α} (h : Explores g path starts t new met)
    (h' : Explores g path more ⟨t.closed ++ new, t.returns ++ met⟩ new' met') :
    Explores g path (starts ++ more) t (new ++ new') (met ++ met') := by
  have hassoc : t.closed ++ (new ++ new') = (t.closed ++ new) ++ new' := by simp
  refine ⟨?nodup, ?fresh, ?done, ?reached, ?met_open, ?met_cycle, ?edges, ?count⟩
  case nodup =>
    refine List.nodup_append.2 ⟨h.nodup, h'.nodup, fun a ha b hb e => ?_⟩
    exact (h'.fresh b hb).1 (List.mem_append_right _ (e ▸ ha))
  case fresh =>
    intro a ha
    rcases List.mem_append.1 ha with ha | ha
    · exact h.fresh a ha
    · exact ⟨fun hc => (h'.fresh a ha).1 (List.mem_append_left _ hc), (h'.fresh a ha).2⟩
  case done =>
    intro a ha
    rw [hassoc]
    rcases List.mem_append.1 ha with ha | ha
    · rcases h.done a ha with hc | ⟨hp, hm⟩
      · exact .inl (List.mem_append_left _ hc)
      · exact .inr ⟨hp, List.mem_append_left _ hm⟩
    · exact (h'.done a ha).imp_right fun hm => ⟨hm.1, List.mem_append_right _ hm.2⟩
  case reached =>
    intro b hb
    rcases List.mem_append.1 hb with hb | hb
    · obtain ⟨a, ha, hab⟩ := h.reached b hb
      exact ⟨a, List.mem_append_left _ ha, hab⟩
    · obtain ⟨a, ha, hab⟩ := h'.reached b hb
      exact ⟨a, List.mem_append_right _ ha, hab⟩
  case met_open =>
    intro b hb
    rcases List.mem_append.1 hb with hb | hb
    · exact (h.met_open b hb).imp_right (List.mem_append_left _)
    · exact (h'.met_open b hb).imp_right (List.mem_append_right _)
  case met_cycle =>
    intro b hb
    rcases List.mem_append.1 hb with hb | hb
    · exact h.met_cycle b hb
    · exact h'.met_cycle b hb
  case edges =>
    intro a ha b hb
    rw [hassoc]
    rcases List.mem_append.1 ha with ha | ha
    · rw [precedes_append (List.mem_append_right _ ha)]
      exact (h.edges a ha b hb).imp_right (List.mem_append_left _)
    · exact (h'.edges a ha b hb).imp_right (List.mem_append_right _)
  case count =>
    have hsum : (new.map (lateEdges g ((t.closed ++ new) ++ new'))).sum =
        (new.map (lateEdges g (t.closed ++ new))).sum := by
      refine congrArg List.sum (List.map_congr_left fun b hb => ?_)
      exact lateEdges_append (List.mem_append_right _ hb) new'
    have hcount : met'.length = more.countP (fun a => a ∈ path) +
        (new'.map (lateEdges g ((t.closed ++ new) ++ new'))).sum := h'.count
    rw [List.length_append, h.count, hcount, hassoc, List.map_append, List.sum_append, hsum,
      List.countP_append]
    omega

omit [DecidableEq α] in
/-- Opening a node keeps the open nodes in line: they lead to its neighbours. -/
theorem Below.open_node (h : Below g path [a] t) (ha : a ∉ t.closed) :
    Below g (a :: path) (g.next a) t where
  not_closed := by
    intro b hb
    rcases List.mem_cons.1 hb with rfl | hb
    · exact ha
    · exact h.not_closed b hb
  leads := by
    intro b hb c hc
    rcases List.mem_cons.1 hb with rfl | hb
    · exact .edge hc
    · exact (h.leads b hb a (List.mem_singleton_self a)).snoc hc

/-- What a walk leaves behind stays below the same open nodes. -/
theorem Below.after {more : List α} (h : Below g path (starts ++ more) t)
    (hexp : Explores g path starts t new met) :
    Below g path more ⟨t.closed ++ new, t.returns ++ met⟩ where
  not_closed := fun a ha hmem => by
    rcases List.mem_append.1 hmem with hmem | hmem
    · exact h.not_closed a ha hmem
    · exact (hexp.fresh a hmem).2 ha
  leads := fun a ha b hb => h.leads a ha b (List.mem_append_right _ hb)

omit [DecidableEq α] in
theorem Below.left {more : List α} (h : Below g path (starts ++ more) t) :
    Below g path starts t :=
  ⟨h.not_closed, fun a ha b hb => h.leads a ha b (List.mem_append_left _ hb)⟩

/-- The walk from a node that is neither closed nor open. -/
theorem visit_of_new (hg : g.Supported) (hclosed : a ∉ t.closed) (hpath : a ∉ path) :
    visit g path t a =
      let done := (g.next a).foldl (visit g (a :: path)) t
      { done with closed := done.closed ++ [a] } := by
  rw [visit, if_neg hclosed, dif_neg hpath]
  by_cases ha : a ∈ g.nodes
  · rw [dif_pos ha]
  · rw [dif_neg ha, hg a ha]
    rfl

/-- A statement about walks from some nodes that every way in which a walk goes on keeps. -/
structure Kept (g : Graph α)
    (holds : List α → List α → Traversal α → List α → List α → Prop) : Prop where
  /-- It says at least that the walk explores. -/
  explores : ∀ {path starts t new met}, holds path starts t new met →
    Explores g path starts t new met
  nil : ∀ {path t}, holds path [] t [] []
  of_closed : ∀ {path t a}, a ∈ t.closed → Below g path [a] t → holds path [a] t [] []
  of_open : ∀ {path t a}, a ∈ path → Below g path [a] t → holds path [a] t [] [a]
  close : ∀ {path t a new met}, holds (a :: path) (g.next a) t new met → Below g path [a] t →
    a ∉ t.closed → a ∉ path → holds path [a] t (new ++ [a]) met
  append : ∀ {path starts more t new met new' met'}, holds path starts t new met →
    holds path more ⟨t.closed ++ new, t.returns ++ met⟩ new' met' →
    holds path (starts ++ more) t (new ++ new') (met ++ met')

section

variable {holds : List α → List α → Traversal α → List α → List α → Prop}

/-- What holds of each single walk holds of walks in turn. -/
theorem Kept.foldl (hkept : Kept g holds) {walk : Traversal α → α → Traversal α}
    (hwalk : ∀ t a, Below g path [a] t → ∃ new met,
      walk t a = ⟨t.closed ++ new, t.returns ++ met⟩ ∧ holds path [a] t new met)
    (starts : List α) (t : Traversal α) (hbelow : Below g path starts t) :
    ∃ new met, starts.foldl walk t = ⟨t.closed ++ new, t.returns ++ met⟩ ∧
      holds path starts t new met := by
  induction starts generalizing t with
  | nil => exact ⟨[], [], by simp, hkept.nil⟩
  | cons a starts ih =>
      have hsplit : Below g path ([a] ++ starts) t := hbelow
      obtain ⟨new, met, hfirst, hholds⟩ := hwalk t a hsplit.left
      obtain ⟨new', met', hrest, hholds'⟩ := ih _ (hsplit.after (hkept.explores hholds))
      refine ⟨new ++ new', met ++ met', ?_, hkept.append hholds hholds'⟩
      rw [List.foldl_cons, hfirst, hrest]
      simp

/-- It holds of a walk from one node below the open nodes. The path grows by a node at each level,
so there is less room below. -/
theorem Kept.visit (hkept : Kept g holds) (hg : g.Supported) (path : List α) (t : Traversal α)
    (a : α) (hbelow : Below g path [a] t) : ∃ new met,
      Traversal.visit g path t a = ⟨t.closed ++ new, t.returns ++ met⟩ ∧
        holds path [a] t new met := by
  by_cases hclosed : a ∈ t.closed
  · refine ⟨[], [], ?_, hkept.of_closed hclosed hbelow⟩
    rw [Traversal.visit, if_pos hclosed]
    simp
  by_cases hpath : a ∈ path
  · refine ⟨[], [a], ?_, hkept.of_open hpath hbelow⟩
    rw [Traversal.visit, if_neg hclosed, dif_pos hpath]
    simp
  obtain ⟨new, met, hdone, hholds⟩ : ∃ new met,
      (g.next a).foldl (Traversal.visit g (a :: path)) t =
          ⟨t.closed ++ new, t.returns ++ met⟩ ∧
        holds (a :: path) (g.next a) t new met := by
    by_cases ha : a ∈ g.nodes
    · exact hkept.foldl (hkept.visit hg (a :: path)) _ _ (hbelow.open_node hclosed)
    · rw [hg a ha]
      exact ⟨[], [], by simp, hkept.nil⟩
  refine ⟨new ++ [a], met, ?_, hkept.close hholds hbelow hclosed hpath⟩
  rw [visit_of_new hg hclosed hpath, hdone]
  simp
termination_by room g path
decreasing_by exact room_cons_lt ha hpath

/-- It holds of a whole walk, with nothing open. -/
theorem Kept.ofStarts (hkept : Kept g holds) (hg : g.Supported) (starts : List α) :
    holds [] starts {} (Traversal.ofStarts g starts).closed
      (Traversal.ofStarts g starts).returns := by
  obtain ⟨new, met, hwalk, hholds⟩ :=
    hkept.foldl (hkept.visit hg []) starts {} ⟨by simp, by simp⟩
  have hresult : Traversal.ofStarts g starts = ⟨[] ++ new, [] ++ met⟩ := hwalk
  rw [hresult]
  exact hholds

end

/-- Walks explore. -/
theorem kept_explores (g : Graph α) : Kept g (Explores g) where
  explores h := h
  nil := .nil
  of_closed := .of_closed
  of_open := .of_open
  close h hbelow hclosed hpath := h.close (hbelow.open_node hclosed) hpath
  append := .append

/-- A walk from one node explores below the open nodes. -/
theorem explores_visit (hg : g.Supported) (path : List α) (t : Traversal α) (a : α)
    (hbelow : Below g path [a] t) : ∃ new met,
      visit g path t a = ⟨t.closed ++ new, t.returns ++ met⟩ ∧ Explores g path [a] t new met :=
  (kept_explores g).visit hg path t a hbelow

/-- Walks in turn explore below the open nodes. -/
theorem explores_foldl (hg : g.Supported) (path starts : List α) (t : Traversal α)
    (hbelow : Below g path starts t) : ∃ new met,
      starts.foldl (visit g path) t = ⟨t.closed ++ new, t.returns ++ met⟩ ∧
        Explores g path starts t new met :=
  (kept_explores g).foldl (explores_visit hg path) starts t hbelow

/-- A whole walk explores from its starts, with nothing open. -/
theorem explores_ofStarts (hg : g.Supported) (starts : List α) :
    Explores g [] starts {} (ofStarts g starts).closed (ofStarts g starts).returns :=
  (kept_explores g).ofStarts hg starts

/-- What is met during a whole walk is closed in the end. -/
theorem mem_closed_of_mem_returns (hg : g.Supported) (ha : a ∈ (ofStarts g starts).returns) :
    a ∈ (ofStarts g starts).closed :=
  ((explores_ofStarts hg starts).met_open a ha).resolve_left List.not_mem_nil

/-- An edge of a closed node leads to one that was closed before, or to one that was met. -/
theorem precedes_or_mem_returns (hg : g.Supported) (ha : a ∈ (ofStarts g starts).closed) {b : α}
    (hb : b ∈ g.next a) :
    Precedes (ofStarts g starts).closed b a ∨ b ∈ (ofStarts g starts).returns :=
  (explores_ofStarts hg starts).edges a ha b hb

/-- The neighbours of closed nodes are closed. -/
theorem mem_closed_of_mem_next (hg : g.Supported) (ha : a ∈ (ofStarts g starts).closed) {b : α}
    (hb : b ∈ g.next a) : b ∈ (ofStarts g starts).closed := by
  rcases precedes_or_mem_returns hg ha hb with hlt | hmet
  · exact hlt.mem
  · exact mem_closed_of_mem_returns hg hmet

/-- What closed nodes lead to is closed. -/
theorem mem_closed_of_path (hg : g.Supported) (ha : a ∈ (ofStarts g starts).closed) {b : α}
    (hab : g.Path a b) : b ∈ (ofStarts g starts).closed :=
  hab.mem_of_closed (fun _ ha _ hb => mem_closed_of_mem_next hg ha hb) ha

/-- A walk closes what can be reached from its starts and nothing else. -/
theorem mem_closed_ofStarts_iff (hg : g.Supported) {b : α} :
    b ∈ (ofStarts g starts).closed ↔ ∃ a ∈ starts, g.Reaches a b := by
  constructor
  · exact (explores_ofStarts hg starts).reached b
  · rintro ⟨a, ha, hab⟩
    have hclosed : a ∈ (ofStarts g starts).closed := by
      simpa using (explores_ofStarts hg starts).done a ha
    rcases hab with rfl | hab
    · exact hclosed
    · exact mem_closed_of_path hg hclosed hab

/-- What is met again lies on a cycle. -/
theorem path_of_mem_returns (hg : g.Supported) (ha : a ∈ (ofStarts g starts).returns) :
    g.Path a a :=
  (explores_ofStarts hg starts).met_cycle a ha

/-- There is one meeting for each edge to a node that was not closed before. -/
theorem length_returns (hg : g.Supported) (starts : List α) :
    (ofStarts g starts).returns.length =
      ((ofStarts g starts).closed.map (lateEdges g (ofStarts g starts).closed)).sum := by
  simpa using (explores_ofStarts hg starts).count

/-- If nothing is met again, then all paths go back in the order of closing. -/
theorem precedes_of_path (hg : g.Supported) (hnone : (ofStarts g starts).returns = [])
    (ha : a ∈ (ofStarts g starts).closed) {b : α} (hab : g.Path a b) :
    Precedes (ofStarts g starts).closed b a := by
  have hedge : ∀ {a b}, a ∈ (ofStarts g starts).closed → b ∈ g.next a →
      Precedes (ofStarts g starts).closed b a := fun ha hb =>
    (precedes_or_mem_returns hg ha hb).resolve_right (by simp [hnone])
  induction hab with
  | edge he => exact hedge ha he
  | cons he _ ih => exact (ih (mem_closed_of_mem_next hg ha he)).trans (hedge ha he)

/-- A walk meets an open node exactly if it can reach a cycle. -/
theorem returns_ofStarts_eq_nil_iff (hg : g.Supported) :
    (ofStarts g starts).returns = [] ↔ ∀ a ∈ (ofStarts g starts).closed, ¬ g.Path a a := by
  constructor
  · exact fun hnone a ha hcycle => not_precedes_self _ a (precedes_of_path hg hnone ha hcycle)
  · intro hacyclic
    refine List.eq_nil_iff_forall_not_mem.2 fun a ha => ?_
    exact hacyclic a (mem_closed_of_mem_returns hg ha) (path_of_mem_returns hg ha)

/-- A walk that starts from all nodes on cycles meets an open node exactly if there is a cycle. -/
theorem returns_eq_nil_iff_acyclic (hg : g.Supported) (hstarts : ∀ a, g.Path a a → a ∈ starts) :
    (ofStarts g starts).returns = [] ↔ g.Acyclic := by
  rw [returns_ofStarts_eq_nil_iff hg]
  constructor
  · intro hclosed a ha
    exact hclosed a ((mem_closed_ofStarts_iff hg).2 ⟨a, hstarts a ha, .refl g a⟩) ha
  · exact fun hacyclic a _ => hacyclic a

end Traversal

end LogicCircuit
