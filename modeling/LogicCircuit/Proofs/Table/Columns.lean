import LogicCircuit.Proofs.Circuit.Frame

/-!
# The columns of a truth table

A table lists components by display name, and by name where display names are the same. The sort
compares display names alone; it is stable, and it starts from the components by name.
`Circuit.Columns` describes such a list without saying how it is made, and no two lists meet the
description (`Columns.unique`). So the columns are the same in any two circuits that agree on the
components and their labels.
-/

namespace LogicCircuit

/-- Whether a truth table runs through the levels of the component. -/
def Component.isTabulated (x : Component) : Bool := x.kind.source?.any (·.kind.isTabulated)

namespace Circuit

variable {c d : Circuit} {p : Component → Bool} {columns columns' : List (ComponentId × String)}

/-- The order of columns: by display name, then by name. -/
def ColumnLt (a b : ComponentId × String) : Prop := a.2 < b.2 ∨ a.2 = b.2 ∧ a.1 < b.1

/-- A list has the components that satisfy a condition, with their display names, by display name
and then by name. -/
structure Columns (c : Circuit) (p : Component → Bool) (columns : List (ComponentId × String)) :
    Prop where
  /-- The components that satisfy the condition are listed with their display names. -/
  mem_iff : ∀ {a}, a ∈ columns ↔ ∃ x, c.component? a.1 = some x ∧ p x ∧ x.displayName = a.2
  /-- The list is in order. -/
  sorted : columns.Pairwise ColumnLt

/-! ## Sorting -/

theorem perm_named (xs : List Component) :
    (named xs).Perm (xs.map fun x => (x.id, x.displayName)) :=
  List.mergeSort_perm _ _

theorem displayName_le_trans (a b d : ComponentId × String) (hab : decide (a.2 ≤ b.2) = true)
    (hbd : decide (b.2 ≤ d.2) = true) : decide (a.2 ≤ d.2) = true :=
  decide_eq_true (String.le_trans (of_decide_eq_true hab) (of_decide_eq_true hbd))

theorem displayName_le_total (a b : ComponentId × String) :
    (decide (a.2 ≤ b.2) || decide (b.2 ≤ a.2)) = true := by
  simpa using String.le_total a.2 b.2

/-- Components with the same display name stay in the order in which they were. -/
theorem filter_named (xs : List Component) (name : String) :
    (named xs).filter (·.2 == name) =
      (xs.map fun x => (x.id, x.displayName)).filter (·.2 == name) := by
  set ys := xs.map fun x => (x.id, x.displayName) with hys
  have hsame : (ys.filter (·.2 == name)).Pairwise fun a b => decide (a.2 ≤ b.2) = true := by
    refine List.pairwise_iff_forall_sublist.2 fun {a b} hab => ?_
    have hname : ∀ {a}, a ∈ ys.filter (·.2 == name) → a.2 = name := fun ha => by
      simpa using (List.mem_filter.1 ha).2
    rw [hname (hab.subset List.mem_cons_self), hname (hab.subset (by simp))]
    exact decide_eq_true (String.le_refl name)
  have hsub : (ys.filter (·.2 == name)).Sublist (named xs) :=
    List.sublist_mergeSort displayName_le_trans displayName_le_total hsame List.filter_sublist
  have hfiltered := hsub.filter (·.2 == name)
  simp only [List.filter_filter, Bool.and_self] at hfiltered
  exact (hfiltered.eq_of_length ((perm_named xs).filter _).length_eq.symm).symm

/-- Components that come by name are sorted by display name and then by name. -/
theorem sorted_named {xs : List Component} (h : xs.Pairwise fun x y => x.id < y.id) :
    (named xs).Pairwise ColumnLt := by
  have hle : (named xs).Pairwise fun a b => decide (a.2 ≤ b.2) = true :=
    List.pairwise_mergeSort displayName_le_trans displayName_le_total _
  refine List.pairwise_iff_forall_sublist.2 fun {a b} hab => ?_
  have hnames : a.2 ≤ b.2 := of_decide_eq_true (List.pairwise_iff_forall_sublist.1 hle hab)
  by_cases heq : a.2 = b.2
  · -- two columns of one display name are still in the order of the unsorted list
    have hfiltered := hab.filter (·.2 == b.2)
    rw [filter_named] at hfiltered
    have hpair : [a, b].Sublist (xs.map fun x => (x.id, x.displayName)) :=
      (by simpa [heq] using hfiltered : [a, b].Sublist _).trans List.filter_sublist
    have hids : (xs.map fun x => (x.id, x.displayName)).Pairwise fun a b => a.1 < b.1 :=
      List.pairwise_map.2 h
    exact .inr ⟨heq, List.pairwise_iff_forall_sublist.1 hids hpair⟩
  · exact .inl (Roster.lt_of_not_lt_of_ne (String.not_lt.2 hnames) (Ne.symm heq))

/-! ## Columns -/

/-- The components that satisfy a condition, sorted by display name, are columns. -/
theorem columns_named (c : Circuit) (p : Component → Bool) :
    c.Columns p (named (c.components.entries.filter p)) where
  mem_iff := by
    intro a
    rw [(perm_named _).mem_iff, List.mem_map]
    constructor
    · rintro ⟨x, hx, rfl⟩
      obtain ⟨hmem, hp⟩ := List.mem_filter.1 hx
      exact ⟨x, Roster.mem_entries_iff.1 hmem, hp, rfl⟩
    · rintro ⟨x, hx, hp, hname⟩
      obtain ⟨hmem, hid⟩ := Roster.get?_eq_some_iff.1 hx
      exact ⟨x, List.mem_filter.2 ⟨hmem, hp⟩, Prod.ext hid hname⟩
  sorted := sorted_named (c.components.increasing.filter p)

theorem columns_tableInputs (c : Circuit) : c.Columns Component.isTabulated c.tableInputs := by
  have hsource : c.sources.filter Component.isTabulated =
      c.components.entries.filter Component.isTabulated := by
    rw [sources, List.filter_filter]
    refine List.filter_congr fun x _ => ?_
    cases hk : x.kind <;> simp [Component.isTabulated, hk, Kind.source?, Kind.isSource]
  have hcolumns := c.columns_named Component.isTabulated
  rwa [← hsource] at hcolumns

theorem columns_tableOutputs (c : Circuit) : c.Columns (·.kind.isSink) c.tableOutputs :=
  c.columns_named _

namespace Columns

/-- No component has two columns. -/
theorem nodup (h : c.Columns p columns) : (columns.map (·.1)).Nodup := by
  refine List.pairwise_map.2 (h.sorted.imp_of_mem fun {a b} ha hb hlt hid => ?_)
  obtain ⟨x, hx, -, hxname⟩ := h.mem_iff.1 ha
  obtain ⟨y, hy, -, hyname⟩ := h.mem_iff.1 hb
  obtain rfl := Option.some.inj (hx.symm.trans ((congrArg c.component? hid).trans hy))
  rcases hlt with hlt | ⟨-, hlt⟩
  · exact String.lt_irrefl _ (hxname ▸ hyname ▸ hlt)
  · exact String.lt_irrefl _ (hid ▸ hlt)

/-- There is only one list of columns. -/
theorem unique (h : c.Columns p columns) (h' : c.Columns p columns') : columns = columns' := by
  have hperm : columns.Perm columns' :=
    (List.perm_ext_iff_of_nodup h.nodup.of_map h'.nodup.of_map).2 fun a =>
      h.mem_iff.trans h'.mem_iff.symm
  refine hperm.eq_of_pairwise (fun a b _ _ hab hba => ?_) h.sorted h'.sorted
  rcases hab with hab | ⟨heq, hab⟩ <;> rcases hba with hba | ⟨heq', hba⟩
  · exact absurd (String.lt_trans hab hba) (String.lt_irrefl _)
  · exact absurd (heq' ▸ hab) (String.lt_irrefl _)
  · exact absurd (heq ▸ hba) (String.lt_irrefl _)
  · exact absurd (String.lt_trans hab hba) (String.lt_irrefl _)

/-- The columns are the same in circuits that agree on which components satisfy the condition and
on their display names. -/
theorem congr (h : c.Columns p columns)
    (hsame : ∀ id name, (∃ x, d.component? id = some x ∧ p x ∧ x.displayName = name) ↔
      ∃ x, c.component? id = some x ∧ p x ∧ x.displayName = name) : d.Columns p columns :=
  ⟨h.mem_iff.trans (hsame _ _).symm, h.sorted⟩

end Columns

end Circuit

end LogicCircuit
