import LogicCircuit.Proofs.Circuit.Adding
import LogicCircuit.Proofs.Simulation.Restarts
import LogicCircuit.Proofs.Simulation.Snapshots

/-!
# Recognising states

A guard is shown circuits and sees texts only. As long as the circuits have the same names, a text
stands for the outputs of all components, whatever characters the names consist of, so the guard
counts states: its window shows the latest circuits one by one (`Guard.map_snapshot_rtake`), a
text is there as often as circuits with these outputs are (`Circuit.count_snapshot`), and what is
said of the window in texts holds of the circuits as well (`Guard.Verdict.ofStates`). Both
together are `snapshots_identify_states`.
-/

namespace LogicCircuit

namespace Circuit

variable {c d : Circuit} {window : List Circuit}

/-- All components of a circuit put out the same in another one. -/
def SameOutputs (c d : Circuit) : Prop :=
  ∀ id ∈ c.ids, d.outputOf (some id) = c.outputOf (some id)

instance (c d : Circuit) : Decidable (c.SameOutputs d) :=
  inferInstanceAs (Decidable (∀ _ ∈ _, _))

/-- Two circuits have the same names. -/
def SameNames (c d : Circuit) : Prop := ∀ id, id ∈ d.ids ↔ id ∈ c.ids

/-- How many circuits have the same outputs as this one. -/
def timesIn (window : List Circuit) (c : Circuit) : Nat := window.countP fun d => c.SameOutputs d

/-- The first place of a circuit that has the same outputs as this one. -/
def firstIn (window : List Circuit) (c : Circuit) : Nat := window.findIdx fun d => c.SameOutputs d

theorem SameNames.snapshot_eq_iff (h : c.SameNames d) :
    d.snapshot = c.snapshot ↔ c.SameOutputs d := by
  have hids : d.ids = c.ids := ids_eq_of_mem_iff h
  rw [Circuit.snapshot_eq_iff hids]
  refine ⟨fun houtputs id _ => houtputs id, fun houtputs id => ?_⟩
  by_cases hid : id ∈ c.ids
  · exact houtputs id hid
  · rw [outputOf_of_not_mem_ids hid, outputOf_of_not_mem_ids (hids ▸ hid)]

theorem SameNames.trans {e : Circuit} (hcd : c.SameNames d) (hce : c.SameNames e) :
    d.SameNames e := fun id => (hce id).trans (hcd id).symm

/-- Where a text is that of a circuit, the outputs are the same. -/
theorem SameNames.beq_snapshot (h : c.SameNames d) :
    (d.snapshot == c.snapshot) = decide (c.SameOutputs d) := by
  rw [Bool.eq_iff_iff, beq_iff_eq, decide_eq_true_iff, h.snapshot_eq_iff]

/-- A text is there as often as the outputs are. -/
theorem count_snapshot (h : ∀ d ∈ window, c.SameNames d) :
    (window.map snapshot).count c.snapshot = timesIn window c := by
  rw [List.count, List.countP_map, timesIn]
  exact List.countP_congr fun d hd => by rw [Function.comp_apply, (h d hd).beq_snapshot]

theorem idxOf_snapshot (h : ∀ d ∈ window, c.SameNames d) :
    (window.map snapshot).idxOf c.snapshot = firstIn window c := by
  induction window with
  | nil => rfl
  | cons d window ih =>
      obtain ⟨hd, hwindow⟩ := List.forall_mem_cons.1 h
      rw [List.map_cons, List.idxOf_cons, hd.beq_snapshot, ih hwindow, firstIn, firstIn,
        List.findIdx_cons]

end Circuit

namespace Guard

open Circuit (snapshot timesIn firstIn)

/-- What a guard reports on the circuits of its window. -/
structure StateVerdict (size threshold : Nat) (window : List Circuit)
    (report : Option Oscillation) : Prop where
  /-- Something is reported exactly if the window is full, holds two circuits of different outputs
  and holds some outputs often enough. -/
  reports : report.isSome ↔ window.length = size ∧
    (∃ c ∈ window, ∃ d ∈ window, ¬ c.SameOutputs d) ∧ ∃ c ∈ window, threshold ≤ timesIn window c
  /-- Of the circuits whose outputs are there often enough one is reported whose outputs come
  first, with their number. -/
  state : ∀ o, report = some o → ∃ c ∈ window, o.pattern = c.snapshot ∧
    o.count = timesIn window c ∧ threshold ≤ o.count ∧
    ∀ d ∈ window, threshold ≤ timesIn window d → firstIn window c ≤ firstIn window d

variable {size threshold : Nat} {window : List Circuit} {report : Option Oscillation}
  {left : List String}

/-- A verdict on the texts of circuits with the same names is one on the circuits. -/
theorem Verdict.ofStates (h : Verdict size threshold (window.map snapshot) report left)
    (hnames : ∀ c ∈ window, ∀ d ∈ window, c.SameNames d) :
    StateVerdict size threshold window report where
  reports := by
    have hmixed : (∃ p ∈ window.map snapshot, ∃ q ∈ window.map snapshot, p ≠ q) ↔
        ∃ c ∈ window, ∃ d ∈ window, ¬ c.SameOutputs d := by
      simp only [List.mem_map, exists_exists_and_eq_and]
      refine exists_congr fun c => and_congr_right fun hc => exists_congr fun d =>
        and_congr_right fun hd => ?_
      rw [ne_comm, ne_eq, (hnames c hc d hd).snapshot_eq_iff]
    have hoften : (∃ p ∈ window.map snapshot, threshold ≤ (window.map snapshot).count p) ↔
        ∃ c ∈ window, threshold ≤ timesIn window c := by
      simp only [List.mem_map, exists_exists_and_eq_and]
      exact exists_congr fun c => and_congr_right fun hc => by
        rw [Circuit.count_snapshot (hnames c hc)]
    rw [h.reports, List.length_map, hmixed, hoften]
  state o ho := by
    obtain ⟨hmem, hoften, hfirst⟩ := h.first o ho
    obtain ⟨c, hc, hpattern⟩ := List.mem_map.1 hmem
    have hcount : o.count = timesIn window c := by
      rw [h.count o ho, ← hpattern, Circuit.count_snapshot (hnames c hc)]
    refine ⟨c, hc, hpattern.symm, hcount, h.count o ho ▸ hoften, fun d hd htimes => ?_⟩
    rw [← Circuit.count_snapshot (hnames d hd)] at htimes
    have hplace := hfirst _ (List.mem_map_of_mem hd) htimes
    rwa [← hpattern, Circuit.idxOf_snapshot (hnames c hc), Circuit.idxOf_snapshot (hnames d hd)]
      at hplace

/-! ## The circuits that a guard is shown -/

/-- A guard is shown a circuit, or made to forget all that it saw. -/
def Use.ofState : Option Circuit → Use
  | some c => .record c.snapshot
  | none => .clear

theorem seen_suffix (g : Guard) (state : String) : g.seen state <:+ g.window ++ [state] :=
  List.drop_suffix _ _

/-- What a record leaves in the window was there before, or is the new state. -/
theorem window_record_suffix (g : Guard) (state : String) :
    (g.record state).2.window <:+ g.window ++ [state] := by
  rw [(g.verdict_record state).left]
  split
  · exact List.nil_suffix
  · exact g.seen_suffix state

/-- Where a window shows the latest circuits, it does so with a further one. -/
theorem append_suffix {texts : List String} {past : List Circuit}
    (h : texts <:+ past.map snapshot) (c : Circuit) :
    texts ++ [c.snapshot] <:+ (past ++ [c]).map snapshot := by
  obtain ⟨before, hbefore⟩ := h
  exact ⟨before, by rw [← List.append_assoc, hbefore, List.map_append, List.map_singleton]⟩

/-- A window shows the latest of the circuits that the guard was shown. -/
theorem window_useAll_suffix {g : Guard} {past : List Circuit}
    (h : g.window <:+ past.map snapshot) (uses : List (Option Circuit)) :
    (g.useAll (uses.map .ofState)).window <:+ (past ++ uses.filterMap id).map snapshot := by
  induction uses generalizing g past with
  | nil => rwa [List.filterMap_nil, List.append_nil]
  | cons u uses ih =>
      cases u with
      | none => exact ih (g := g.clear) List.nil_suffix
      | some c =>
          have hrest := ih ((g.window_record_suffix c.snapshot).trans (append_suffix h c))
          rwa [List.append_assoc] at hrest

/-- The window that is judged shows as many of the latest circuits as it has places in use. -/
theorem map_snapshot_rtake (size threshold : Nat) (uses : List (Option Circuit)) (c : Circuit) :
    let seen := ((ofSize size threshold).useAll (uses.map .ofState)).seen c.snapshot
    ((uses.filterMap id ++ [c]).rtake seen.length).map snapshot = seen := by
  intro seen
  have hwindow : ((ofSize size threshold).useAll (uses.map .ofState)).window <:+
      ([] ++ uses.filterMap id).map snapshot := window_useAll_suffix List.nil_suffix uses
  have hseen : seen <:+ (uses.filterMap id ++ [c]).map snapshot :=
    (seen_suffix _ _).trans (append_suffix hwindow c)
  have hend := List.suffix_iff_eq_drop.1 hseen
  rw [List.length_map] at hend
  rw [List.rtake, List.map_drop, ← hend]

end Guard

/-- Snapshots identify states. Two circuits with the same names have the same snapshot exactly if
every component puts out the same in both, whatever the names are. So a guard takes circuits for
the same state exactly if they are. If it is shown circuits with the same names, and made to
forget what it saw in between, then a further one is judged in a window that shows the latest
circuits one by one, and the report on it counts the circuits of the same outputs. -/
theorem snapshots_identify_states :
    (∀ c d : Circuit, (∀ id, id ∈ d.ids ↔ id ∈ c.ids) →
      (d.snapshot = c.snapshot ↔ ∀ id ∈ c.ids, d.outputOf (some id) = c.outputOf (some id))) ∧
    ∀ (size threshold : Nat) (uses : List (Option Circuit)) (c : Circuit),
      (∀ d, some d ∈ uses → ∀ id, id ∈ d.ids ↔ id ∈ c.ids) →
      let g := (Guard.ofSize size threshold).useAll (uses.map .ofState)
      let window := (uses.filterMap id ++ [c]).rtake (g.seen c.snapshot).length
      window.map (·.snapshot) = g.seen c.snapshot ∧
        Guard.StateVerdict size threshold window (g.record c.snapshot).1 := by
  refine ⟨fun c d h => Circuit.SameNames.snapshot_eq_iff h, ?_⟩
  intro size threshold uses c hnames g window
  have hshown : window.map Circuit.snapshot = g.seen c.snapshot :=
    Guard.map_snapshot_rtake size threshold uses c
  have hwindow : ∀ d ∈ window, c.SameNames d := by
    intro d hd
    rcases List.mem_append.1 (List.mem_of_mem_drop hd) with hd | hd
    · obtain ⟨u, hu, rfl⟩ := List.mem_filterMap.1 hd
      exact hnames d hu
    · obtain rfl := List.mem_singleton.1 hd
      exact fun _ => Iff.rfl
  have hverdict := g.verdict_record c.snapshot
  have hsize : g.size = size := (Guard.ofSize size threshold).size_useAll _
  have hthreshold : g.threshold = threshold :=
    (Guard.ofSize size threshold).threshold_useAll _
  rw [← hshown, hsize, hthreshold] at hverdict
  exact ⟨hshown, hverdict.ofStates fun d hd e he => (hwindow d hd).trans (hwindow e he)⟩

/-- Three switches. The names of two of them look like entries of a snapshot. -/
def oddlyNamed : Circuit :=
  Edit.applyAll
    [.add ((Component.source .switch .origin).withId "a") (by decide),
      .add ((Component.source .switch .origin).withId "a:1,b") (by decide),
      .add ((Component.source .switch .origin).withId ":0,1") (by decide)]
    .empty

/-- The oddly named circuit when its switches have taken effect, the first one on or off. -/
def oddlyNamedAt (on : Bool) : Circuit := (Edit.applyAll [.setSwitch "a" on] oddlyNamed).pass

/-- The switch that is on is told from the one that is off, so a guard over two states reports
them as different; and it does not report one of them that comes twice. -/
theorem snapshots_identify_states_oddlyNamed :
    (oddlyNamedAt true).snapshot ≠ (oddlyNamedAt false).snapshot ∧
    (((Guard.ofSize 2 1).useAll [.record (oddlyNamedAt false).snapshot]).record
      (oddlyNamedAt true).snapshot).1.isSome ∧
    (((Guard.ofSize 2 1).useAll [.record (oddlyNamedAt false).snapshot]).record
      (oddlyNamedAt false).snapshot).1 = none := by
  obtain ⟨hsnapshots, hguard⟩ := snapshots_identify_states
  have hids : ∀ on on', (oddlyNamedAt on).ids = (oddlyNamedAt on').ids := by decide +kernel
  have hnames : ∀ on on' id, id ∈ (oddlyNamedAt on).ids ↔ id ∈ (oddlyNamedAt on').ids :=
    fun on on' id => by rw [hids on on']
  have hverdict : ∀ on, _ := fun on =>
    (hguard 2 1 [some (oddlyNamedAt false)] (oddlyNamedAt on) fun d hd => by
      obtain rfl := Option.some.inj (List.mem_singleton.1 hd)
      exact hnames false on).2.reports
  refine ⟨fun h => ?_, (hverdict true).2 ?_, ?_⟩
  · have hsame := (hsnapshots _ _ (hnames true false)).1 h
    exact absurd hsame (by decide +kernel)
  · decide +kernel
  · refine Option.not_isSome_iff_eq_none.1 fun hsome => ?_
    exact absurd ((hverdict false).1 hsome) (by decide +kernel)

end LogicCircuit
