import LogicCircuit.Proofs.Graph.DepthFirst
import Mathlib.Data.List.Perm.Basic

/-!
# The edges that a depth-first walk cuts

`Explores` counts how often a walk comes back to an open node. `Cuts` says at which edges it does:
at those that lead to a node that is not closed before, one meeting for each of them and at its
end, and each of these edges closes a loop. The four ways in which a walk goes on keep this too,
and `meetings_ofStarts` and `path_of_mem_lateNext` are what it comes to for a whole walk.
-/

namespace LogicCircuit.Traversal

variable {α : Type} [DecidableEq α]

/-- The neighbours of a node that are not listed before it. -/
def lateNext (g : Graph α) (order : List α) (a : α) : List α :=
  (g.next a).filter fun b => ¬ Precedes order b a

/-- A walk that explores also tells which edges it has cut. -/
structure Cuts (g : Graph α) (path starts : List α) (t : Traversal α) (new met : List α) : Prop
    extends Explores g path starts t new met where
  /-- There is one meeting for each start that is open and one for each late edge, at its end. -/
  meetings : met.Perm
    (starts.filter (fun a => a ∈ path) ++ new.flatMap (lateNext g (t.closed ++ new)))
  /-- A late edge closes a loop. -/
  loops : ∀ a ∈ new, ∀ b ∈ lateNext g (t.closed ++ new) a, g.Path b a

variable {g : Graph α} {path starts new met order : List α} {t : Traversal α} {a b : α}

/-- The same neighbours are late in every longer list. -/
theorem lateNext_append (ha : a ∈ order) (later : List α) :
    lateNext g (order ++ later) a = lateNext g order a := by
  unfold lateNext
  simp only [precedes_append ha]

/-- The neighbours of a node that are late when it is closed are the open ones. -/
theorem Explores.lateNext_eq (h : Explores g (a :: path) (g.next a) t new met)
    (hbelow : Below g (a :: path) (g.next a) t) (ha : a ∉ t.closed ++ new) :
    lateNext g ((t.closed ++ new) ++ [a]) a = (g.next a).filter fun b => b ∈ a :: path := by
  refine List.filter_congr fun b hb => decide_eq_decide.2 ?_
  rw [precedes_append_singleton ha]
  constructor
  · exact fun hnot => ((h.done b hb).resolve_left hnot).1
  · exact fun hopen hmem => h.not_open hbelow hmem hopen

theorem Cuts.nil : Cuts g path [] t [] [] where
  toExplores := .nil
  meetings := .nil
  loops := by simp

/-- A closed node is passed over. -/
theorem Cuts.of_closed (ha : a ∈ t.closed) (hbelow : Below g path [a] t) :
    Cuts g path [a] t [] [] where
  toExplores := .of_closed ha hbelow
  meetings := by
    have hopen : a ∉ path := fun hp => hbelow.not_closed a hp ha
    simp [hopen]
  loops := by simp

/-- An open node is noted. -/
theorem Cuts.of_open (ha : a ∈ path) (hbelow : Below g path [a] t) :
    Cuts g path [a] t [] [a] where
  toExplores := .of_open ha hbelow
  meetings := by simp [ha]
  loops := by simp

/-- After its neighbours a node is closed itself; its late edges lead to open nodes, and those
lead to it. -/
theorem Cuts.close (h : Cuts g (a :: path) (g.next a) t new met) (hbelow : Below g path [a] t)
    (hclosed : a ∉ t.closed) (hpath : a ∉ path) : Cuts g path [a] t (new ++ [a]) met := by
  have hinner := hbelow.open_node hclosed
  have hlist : a ∉ t.closed ++ new := by
    have hnew : a ∉ new := fun ha => (h.fresh a ha).2 List.mem_cons_self
    simp [hclosed, hnew]
  have hassoc : t.closed ++ (new ++ [a]) = (t.closed ++ new) ++ [a] := by simp
  have hself := h.toExplores.lateNext_eq hinner hlist
  have hkept : ∀ b ∈ new,
      lateNext g ((t.closed ++ new) ++ [a]) b = lateNext g (t.closed ++ new) b := fun b hb =>
    lateNext_append (List.mem_append_right _ hb) [a]
  refine ⟨h.toExplores.close hinner hpath, ?meetings, ?loops⟩
  case meetings =>
    have hstart : [a].filter (fun a => a ∈ path) = [] := by simp [hpath]
    have hnew : new.flatMap (lateNext g ((t.closed ++ new) ++ [a])) =
        new.flatMap (lateNext g (t.closed ++ new)) := List.flatMap_congr hkept
    rw [hassoc, hstart, List.nil_append, List.flatMap_append, hnew, List.flatMap_singleton, hself]
    exact h.meetings.trans List.perm_append_comm
  case loops =>
    intro b hb c hc
    rw [hassoc] at hc
    rcases List.mem_append.1 hb with hb | hb
    · exact h.loops b hb c (hkept b hb ▸ hc)
    · obtain rfl := List.mem_singleton.1 hb
      rw [hself] at hc
      obtain ⟨hedge, hopen⟩ := List.mem_filter.1 hc
      rcases List.mem_cons.1 (of_decide_eq_true hopen) with rfl | hopen
      · exact .edge hedge
      · exact hbelow.leads c hopen b (List.mem_singleton_self b)

/-- One walk after another is a walk from the starts of both. -/
theorem Cuts.append {more new' met' : List α} (h : Cuts g path starts t new met)
    (h' : Cuts g path more ⟨t.closed ++ new, t.returns ++ met⟩ new' met') :
    Cuts g path (starts ++ more) t (new ++ new') (met ++ met') := by
  have hassoc : t.closed ++ (new ++ new') = (t.closed ++ new) ++ new' := by simp
  have hkept : ∀ b ∈ new,
      lateNext g ((t.closed ++ new) ++ new') b = lateNext g (t.closed ++ new) b := fun b hb =>
    lateNext_append (List.mem_append_right _ hb) new'
  refine ⟨h.toExplores.append h'.toExplores, ?meetings, ?loops⟩
  case meetings =>
    have hnew : new.flatMap (lateNext g ((t.closed ++ new) ++ new')) =
        new.flatMap (lateNext g (t.closed ++ new)) := List.flatMap_congr hkept
    rw [hassoc, List.filter_append, List.flatMap_append, hnew]
    refine List.perm_iff_count.2 fun b => ?_
    have hfirst := h.meetings.count_eq b
    have hsecond := h'.meetings.count_eq b
    simp only [List.count_append] at hfirst hsecond ⊢
    omega
  case loops =>
    intro b hb c hc
    rw [hassoc] at hc
    rcases List.mem_append.1 hb with hb | hb
    · exact h.loops b hb c (hkept b hb ▸ hc)
    · exact h'.loops b hb c hc

/-- Walks cut late edges. -/
theorem kept_cuts (g : Graph α) : Kept g (Cuts g) where
  explores h := h.toExplores
  nil := .nil
  of_closed := .of_closed
  of_open := .of_open
  close := .close
  append := .append

/-- The meetings of a whole walk are the ends of its late edges, one for each of them. -/
theorem meetings_ofStarts (hg : g.Supported) (starts : List α) :
    (ofStarts g starts).returns.Perm
      ((ofStarts g starts).closed.flatMap (lateNext g (ofStarts g starts).closed)) := by
  simpa using ((kept_cuts g).ofStarts hg starts).meetings

/-- A late edge closes a loop. -/
theorem path_of_mem_lateNext (hg : g.Supported) (ha : a ∈ (ofStarts g starts).closed)
    (hb : b ∈ lateNext g (ofStarts g starts).closed a) : g.Path b a :=
  ((kept_cuts g).ofStarts hg starts).loops a ha b hb

end LogicCircuit.Traversal
