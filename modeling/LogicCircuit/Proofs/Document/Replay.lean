import LogicCircuit.Proofs.Circuit.Objections
import LogicCircuit.Proofs.Simulation.Order

/-!
# Replaying the wires of a document

Loading puts the wires of a document in place one after another. `Document.replayWires` skips a
wire that would close a cycle, `Document.forceWires` does not. As long as the records lead to
different slots no wire ever gives way, so what was skipped once would close a cycle in the end as
well: `Replays` says what comes of the records then, and `replays_replayWires` goes by induction
along them. Without that condition the two ways still agree where no wire is skipped for a cycle
(`forceWires_eq_replayWires`).
-/

namespace LogicCircuit

namespace WireRecord

/-- The record leads from an output to an input. -/
def Directed (w : WireRecord) : Prop :=
  w.sourcePort.direction = .output ∧ w.targetPort.direction = .input

instance (w : WireRecord) : Decidable w.Directed := by unfold Directed; infer_instance

/-- Why a circuit refuses the wire of a record, even if loops are allowed. -/
def flaw? (c : Circuit) (w : WireRecord) : Option WiringError :=
  if w.Directed then c.objection? true w.source w.target w.targetPort.index else some .wrongPorts

/-- The wire of a record is in place. -/
def InPlace (d : Circuit) (w : WireRecord) : Prop :=
  d.plain.driver w.target w.targetPort.index = some w.source

instance (d : Circuit) (w : WireRecord) : Decidable (w.InPlace d) := by
  unfold InPlace; infer_instance

/-- Why the wire of a record was skipped on the way from one circuit to another: for a flaw, or
for a cycle if it is not in place in the end. -/
def refusal? (c d : Circuit) (w : WireRecord) : Option WiringError :=
  (w.flaw? c).or (if w.InPlace d then none else some (.wouldCreateCycle w.source w.target))

/-- Records that lead to different slots. -/
def EndsApart (v w : WireRecord) : Prop :=
  v.Directed → w.Directed → ¬ (v.target = w.target ∧ v.targetPort.index = w.targetPort.index)

instance (v w : WireRecord) : Decidable (v.EndsApart w) := by unfold EndsApart; infer_instance

variable {c d : Circuit} {w : WireRecord}

theorem connectPorts_of_directed (h : w.Directed) (c : Circuit) :
    c.connectPorts w.source w.sourcePort w.target w.targetPort =
      c.connect w.source w.target w.targetPort.index :=
  if_pos h

theorem connectPorts_of_not_directed (h : ¬ w.Directed) (c : Circuit) :
    c.connectPorts w.source w.sourcePort w.target w.targetPort = .error .wrongPorts :=
  if_neg h

theorem directed_of_flaw? (h : w.flaw? c = none) : w.Directed := by
  unfold flaw? at h
  split at h
  · assumption
  · cases h

theorem objection?_of_flaw? (h : w.flaw? c = none) :
    c.objection? true w.source w.target w.targetPort.index = none := by
  rwa [flaw?, if_pos (directed_of_flaw? h)] at h

/-- Flaws are about the components alone. -/
theorem flaw?_congr (h : d.plain.component = c.plain.component) (w : WireRecord) :
    w.flaw? d = w.flaw? c := by
  rw [flaw?, flaw?, Circuit.objection?_congr h]

/-- A cycle is no flaw. -/
theorem flaw?_ne_cycle (c : Circuit) (w : WireRecord) (a b : ComponentId) :
    w.flaw? c ≠ some (.wouldCreateCycle a b) := by
  unfold flaw?
  split
  · exact c.objection?_true_ne_cycle _ _ a b _
  · simp

end WireRecord

/-- Some wires were skipped because they would have closed a cycle. -/
def LoadReport.CutsCycle (report : LoadReport) : Prop :=
  ∃ p ∈ report, ∃ source target, p.2 = .wouldCreateCycle source target

/-- A driver map after the wires of some records were put on their slots in turn. -/
def DriverMap.driveAll (m : DriverMap) (ws : List WireRecord) : DriverMap :=
  ws.foldl (fun m w => m.drive w.source w.target w.targetPort.index) m

namespace Document

open WireRecord (EndsApart)

variable {c d : Circuit} {w : WireRecord} {ws : List WireRecord} {reason : WiringError}

/-! ## One record -/

/-- A record with a flaw is skipped. -/
theorem replayWires_of_flaw (h : w.flaw? c = some reason) (ws : List WireRecord) :
    replayWires (w :: ws) c =
      ((w.id, reason) :: (replayWires ws c).1, (replayWires ws c).2) := by
  have herror : c.connectPorts w.source w.sourcePort w.target w.targetPort = .error reason := by
    unfold WireRecord.flaw? at h
    split at h
    case isTrue hdirected =>
      rw [WireRecord.connectPorts_of_directed hdirected]
      exact Circuit.wireUp_of_objection h false
    case isFalse hdirected =>
      rw [WireRecord.connectPorts_of_not_directed hdirected, ← Option.some.inj h]
  rw [replayWires, herror]

/-- A record without a flaw is connected or skipped for a cycle. -/
theorem replayWires_of_connect (h : w.flaw? c = none) (ws : List WireRecord) :
    replayWires (w :: ws) c =
      match c.connect w.source w.target w.targetPort.index with
      | .ok (_, d) => replayWires ws d
      | .error reason => ((w.id, reason) :: (replayWires ws c).1, (replayWires ws c).2) := by
  have hports := WireRecord.connectPorts_of_directed (WireRecord.directed_of_flaw? h) c
  cases hconnect : c.connect w.source w.target w.targetPort.index with
  | ok d => simp only [replayWires, hports, hconnect]
  | error reason => simp only [replayWires, hports, hconnect]

/-- Forcing goes record by record. -/
theorem forceWires_cons (c : Circuit) (w : WireRecord) (ws : List WireRecord) :
    forceWires c (w :: ws) = forceWires (if w.Directed then
      Edit.settled c (c.force w.source w.target w.targetPort.index) else c) ws := rfl

/-- A record with a flaw is passed over. -/
theorem forceWires_of_flaw (h : w.flaw? c = some reason) (ws : List WireRecord) :
    forceWires c (w :: ws) = forceWires c ws := by
  unfold WireRecord.flaw? at h
  rw [forceWires_cons]
  split at h
  case isTrue hdirected =>
    rw [if_pos hdirected, Circuit.force, Circuit.wireUp_of_objection h true, Edit.settled]
  case isFalse hdirected => rw [if_neg hdirected]

/-- A record without a flaw is forced. -/
theorem forceWires_of_force (h : w.flaw? c = none) {k : WireId}
    (hforce : c.force w.source w.target w.targetPort.index = .ok (k, d)) (ws : List WireRecord) :
    forceWires c (w :: ws) = forceWires d ws := by
  rw [forceWires_cons, if_pos (WireRecord.directed_of_flaw? h), hforce, Edit.settled]

/-- What becomes of a record without a flaw: if its target already leads to its source it is
skipped, else it is in place and nothing else has changed. Forcing it puts it in place anyway. -/
theorem step_of_flaw?_none (h : c.WellWired) (hw : w.flaw? c = none) :
    ∃ d : Circuit, d.WellWired ∧
      d.plain = c.plain.drive w.source w.target w.targetPort.index ∧
      (∀ ws, forceWires c (w :: ws) = forceWires d ws) ∧
      (c.readerGraph.Reaches w.target w.source ∧ (∀ ws, replayWires (w :: ws) c =
          ((w.id, .wouldCreateCycle w.source w.target) :: (replayWires ws c).1,
            (replayWires ws c).2)) ∨
        ∀ ws, replayWires (w :: ws) c = replayWires ws d) := by
  have hnone := WireRecord.objection?_of_flaw? hw
  obtain ⟨k, d, hforce, hd, hplain⟩ := h.exists_force hnone
  refine ⟨d, hd, hplain, forceWires_of_force hw hforce, ?_⟩
  rcases h.connect_cases hnone with ⟨hback, hconnect⟩ | ⟨-, hconnect⟩
  · exact .inl ⟨hback, fun ws => by rw [replayWires_of_connect hw, hconnect]⟩
  · exact .inr fun ws => by rw [replayWires_of_connect hw, hconnect, hforce]

/-! ## All records -/

/-- Loading wires leaves the components as they are. -/
theorem component_replayWires (h : c.WellWired) (ws : List WireRecord) :
    (replayWires ws c).2.plain.component = c.plain.component := by
  induction ws generalizing c with
  | nil => rfl
  | cons w ws ih =>
      cases hw : w.flaw? c with
      | some reason =>
          rw [replayWires_of_flaw hw]
          exact ih h
      | none =>
          obtain ⟨d, hd, hplain, -, ⟨-, hskip⟩ | htake⟩ := step_of_flaw?_none h hw
          · rw [hskip]
            exact ih h
          · rw [htake, ih hd, hplain]
            rfl

/-- If no wire is skipped for a cycle, forcing them all leads to the same circuit. -/
theorem forceWires_eq_replayWires (h : c.WellWired)
    (hnone : ¬ LoadReport.CutsCycle (replayWires ws c).1) :
    forceWires c ws = (replayWires ws c).2 := by
  induction ws generalizing c with
  | nil => rfl
  | cons w ws ih =>
      cases hw : w.flaw? c with
      | some reason =>
          rw [replayWires_of_flaw hw] at hnone ⊢
          rw [forceWires_of_flaw hw]
          refine ih h fun ⟨p, hp, hcycle⟩ => hnone ⟨p, List.mem_cons_of_mem _ hp, hcycle⟩
      | none =>
          obtain ⟨d, hd, -, hforced, ⟨-, hskip⟩ | htake⟩ := step_of_flaw?_none h hw
          · rw [hskip] at hnone
            exact absurd ⟨_, List.mem_cons_self, w.source, w.target, rfl⟩ hnone
          · rw [htake] at hnone ⊢
            rw [hforced, ih hd hnone]

/-- Forcing the wires of records puts those without a flaw on their slots in turn. -/
theorem plain_forceWires (h : c.WellWired) (ws : List WireRecord) :
    (forceWires c ws).plain = c.plain.driveAll (ws.filter fun w => w.flaw? c = none) := by
  induction ws generalizing c with
  | nil => rfl
  | cons w ws ih =>
      cases hw : w.flaw? c with
      | some reason =>
          rw [forceWires_of_flaw hw, ih h, List.filter_cons_of_neg (by simp [hw])]
      | none =>
          obtain ⟨d, hd, hplain, hforced, -⟩ := step_of_flaw?_none h hw
          have hflaw : ∀ v : WireRecord, v.flaw? d = v.flaw? c :=
            WireRecord.flaw?_congr (by rw [hplain]; rfl)
          rw [hforced, ih hd, hplain, List.filter_cons_of_pos (by simp [hw])]
          simp only [hflaw]
          rfl

theorem wellWired_forceWires (h : c.WellWired) (ws : List WireRecord) :
    (forceWires c ws).WellWired :=
  (run_forceWires ws c).wellWired h

/-! ## Records that lead to different slots -/

/-- What comes of records that lead to different slots. -/
structure Replays (c : Circuit) (ws : List WireRecord) (report : LoadReport) (d : Circuit) :
    Prop where
  wired : d.WellWired
  component : d.plain.component = c.plain.component
  /-- No wire gives way. -/
  keeps : ∀ a i b, c.plain.driver a i = some b → d.plain.driver a i = some b
  /-- A new wire is that of a record without a flaw. -/
  comes : ∀ a i b, d.plain.driver a i = some b → c.plain.driver a i = some b ∨
    ∃ w ∈ ws, w.flaw? c = none ∧ w.target = a ∧ w.targetPort.index = i ∧ w.source = b
  /-- What is skipped is reported, in the order of the records. -/
  report : report = ws.filterMap fun w => (w.refusal? c d).map (w.id, ·)
  /-- A wire without a flaw that is not in place in the end would close a cycle there. -/
  cut : ∀ w ∈ ws, w.flaw? c = none → ¬ w.InPlace d → d.readerGraph.Reaches w.target w.source

/-- Nothing comes of no records. -/
theorem Replays.nil (h : c.WellWired) : Replays c [] [] c :=
  ⟨h, rfl, fun _ _ _ hb => hb, fun _ _ _ hb => .inl hb, rfl, fun _ hw => nomatch hw⟩

/-- A record with a flaw adds its line to the report. -/
theorem Replays.flaw {report : LoadReport} (h : Replays c ws report d)
    (hw : w.flaw? c = some reason) : Replays c (w :: ws) ((w.id, reason) :: report) d where
  wired := h.wired
  component := h.component
  keeps := h.keeps
  comes a i b hb := (h.comes a i b hb).imp_right fun ⟨v, hv, hend⟩ =>
    ⟨v, List.mem_cons_of_mem _ hv, hend⟩
  report := by
    rw [h.report, List.filterMap_cons, WireRecord.refusal?, hw]
    rfl
  cut v hv hflaw := by
    rcases List.mem_cons.1 hv with rfl | hv
    · rw [hw] at hflaw
      cases hflaw
    · exact h.cut v hv hflaw

/-- A record whose wire closes a cycle at its turn adds its line to the report. Its slot stays
empty, because no other record leads there. -/
theorem Replays.skip {report : LoadReport} (hc : c.WellWired) (h : Replays c ws report d)
    (hw : w.flaw? c = none) (hfree : c.plain.driver w.target w.targetPort.index = none)
    (hapart : ∀ v ∈ ws, w.EndsApart v) (hback : c.readerGraph.Reaches w.target w.source) :
    Replays c (w :: ws) ((w.id, .wouldCreateCycle w.source w.target) :: report) d := by
  have hout : ¬ w.InPlace d := by
    intro hin
    rcases h.comes _ _ _ hin with hold | ⟨v, hv, hflaw, htarget, hslot, -⟩
    · rw [hfree] at hold
      cases hold
    · exact hapart v hv (WireRecord.directed_of_flaw? hw) (WireRecord.directed_of_flaw? hflaw)
        ⟨htarget.symm, hslot.symm⟩
  refine ⟨h.wired, h.component, h.keeps, fun a i b hb => ?_, ?_, fun v hv hflaw hmissing => ?_⟩
  · exact (h.comes a i b hb).imp_right fun ⟨v, hv, hend⟩ => ⟨v, List.mem_cons_of_mem _ hv, hend⟩
  · rw [h.report, List.filterMap_cons, WireRecord.refusal?, hw, if_neg hout]
    rfl
  · rcases List.mem_cons.1 hv with rfl | hv
    · exact hc.reaches_mono h.wired h.keeps hback
    · exact h.cut v hv hflaw hmissing

/-- A record whose wire is accepted is in place from then on. -/
theorem Replays.take {b : Circuit} {report : LoadReport}
    (h : Replays b ws report d) (hw : w.flaw? c = none)
    (hfree : c.plain.driver w.target w.targetPort.index = none)
    (hplain : b.plain = c.plain.drive w.source w.target w.targetPort.index) :
    Replays c (w :: ws) report d := by
  have hflaw : ∀ v : WireRecord, v.flaw? b = v.flaw? c :=
    WireRecord.flaw?_congr (by rw [hplain]; rfl)
  have hdriver : ∀ a i, b.plain.driver a i =
      if a = w.target ∧ i = w.targetPort.index then some w.source else c.plain.driver a i :=
    fun a i => by rw [hplain]; rfl
  have hin : w.InPlace d := h.keeps _ _ _ (by rw [hdriver, if_pos ⟨rfl, rfl⟩])
  refine ⟨h.wired, ?_, fun a i s hs => ?_, fun a i s hs => ?_, ?_, fun v hv hnone => ?_⟩
  · rw [h.component, hplain]
    rfl
  · refine h.keeps a i s ?_
    rw [hdriver, if_neg, hs]
    rintro ⟨rfl, rfl⟩
    rw [hfree] at hs
    cases hs
  · rcases h.comes a i s hs with hold | ⟨v, hv, hnone, hend⟩
    · rw [hdriver] at hold
      split at hold
      case isTrue hend =>
        exact .inr ⟨w, List.mem_cons_self, hw, hend.1.symm, hend.2.symm, Option.some.inj hold⟩
      case isFalse => exact .inl hold
    · exact .inr ⟨v, List.mem_cons_of_mem _ hv, hflaw v ▸ hnone, hend⟩
  · rw [h.report, List.filterMap_cons, WireRecord.refusal?, hw, if_pos hin]
    simp only [WireRecord.refusal?, hflaw, Option.none_or, Option.map_none]
  · rcases List.mem_cons.1 hv with rfl | hv
    · exact fun hmissing => absurd hin hmissing
    · exact h.cut v hv ((hflaw v).trans hnone)

/-- What comes of the wires of a document that lead to different empty slots. -/
theorem replays_replayWires (h : c.WellWired) (hapart : ws.Pairwise EndsApart)
    (hfree : ∀ w ∈ ws, w.Directed → c.plain.driver w.target w.targetPort.index = none) :
    Replays c ws (replayWires ws c).1 (replayWires ws c).2 := by
  induction ws generalizing c with
  | nil => exact .nil h
  | cons w ws ih =>
      obtain ⟨hw, hapart⟩ := List.pairwise_cons.1 hapart
      obtain ⟨hwfree, hwsfree⟩ := List.forall_mem_cons.1 hfree
      cases hflaw : w.flaw? c with
      | some reason =>
          rw [replayWires_of_flaw hflaw]
          exact (ih h hapart hwsfree).flaw hflaw
      | none =>
          have hdirected := WireRecord.directed_of_flaw? hflaw
          obtain ⟨b, hb, hplain, -, ⟨hback, hskip⟩ | htake⟩ := step_of_flaw?_none h hflaw
          · rw [hskip]
            exact .skip h (ih h hapart hwsfree) hflaw (hwfree hdirected) hw hback
          · rw [htake]
            refine .take (ih hb hapart fun v hv hv' => ?_) hflaw (hwfree hdirected) hplain
            have hne : ¬ (v.target = w.target ∧ v.targetPort.index = w.targetPort.index) :=
              fun hend => hw v hv hdirected hv' ⟨hend.1.symm, hend.2.symm⟩
            rw [hplain]
            show (if _ then _ else _) = none
            rw [if_neg hne, hwsfree v hv hv']

/-- A slot that no record leads to keeps its driver. -/
theorem driver_driveAll_of_apart {m : DriverMap} {a : ComponentId} {i : Nat}
    (h : ∀ w ∈ ws, ¬ (a = w.target ∧ i = w.targetPort.index)) :
    (m.driveAll ws).driver a i = m.driver a i := by
  induction ws generalizing m with
  | nil => rfl
  | cons w ws ih =>
      obtain ⟨hw, hws⟩ := List.forall_mem_cons.1 h
      refine (ih hws).trans ?_
      exact if_neg hw

/-- A record that is forced is in place in the end, unless a later one leads to its slot. -/
theorem driver_driveAll {m : DriverMap} (hapart : ws.Pairwise EndsApart)
    (hdirected : ∀ w ∈ ws, w.Directed) (hw : w ∈ ws) :
    (m.driveAll ws).driver w.target w.targetPort.index = some w.source := by
  induction ws generalizing m with
  | nil => cases hw
  | cons v ws ih =>
      obtain ⟨hv, hapart⟩ := List.pairwise_cons.1 hapart
      obtain ⟨hvd, hrest⟩ := List.forall_mem_cons.1 hdirected
      rcases List.mem_cons.1 hw with rfl | hw
      · refine (driver_driveAll_of_apart fun u hu => hv u hu hvd (hrest u hu)).trans ?_
        exact if_pos ⟨rfl, rfl⟩
      · exact ih hapart hrest hw

/-- Records that lead to different slots are all in place after they were forced, unless they have
a flaw. -/
theorem inPlace_forceWires (h : c.WellWired) (hapart : ws.Pairwise EndsApart) (hw : w ∈ ws)
    (hflaw : w.flaw? c = none) : w.InPlace (forceWires c ws) := by
  have hmem : w ∈ ws.filter fun w => w.flaw? c = none :=
    List.mem_filter.2 ⟨hw, by simpa using hflaw⟩
  have hdirected : ∀ v ∈ ws.filter fun w => w.flaw? c = none, v.Directed := fun v hv =>
    WireRecord.directed_of_flaw? (c := c) (by simpa using (List.mem_filter.1 hv).2)
  rw [WireRecord.InPlace, plain_forceWires h]
  exact driver_driveAll (hapart.filter _) hdirected hmem

/-- Whatever is replayed from records that lead to different slots is there when they are forced.
-/
theorem Replays.driver_forceWires {report : LoadReport} (h : Replays c ws report d)
    (hc : c.WellWired) (hapart : ws.Pairwise EndsApart)
    (hfree : ∀ w ∈ ws, w.Directed → c.plain.driver w.target w.targetPort.index = none)
    (a : ComponentId) (i : Nat) (b : ComponentId) (hb : d.plain.driver a i = some b) :
    (forceWires c ws).plain.driver a i = some b := by
  rcases h.comes a i b hb with hold | ⟨w, hw, hflaw, rfl, rfl, rfl⟩
  · rw [plain_forceWires hc, driver_driveAll_of_apart, hold]
    rintro w hw ⟨rfl, rfl⟩
    obtain ⟨hw, hflaw⟩ := List.mem_filter.1 hw
    rw [hfree w hw (WireRecord.directed_of_flaw? (of_decide_eq_true hflaw))] at hold
    cases hold
  · exact inPlace_forceWires hc hapart hw hflaw

/-- A line of the report about a cycle is that of a record whose wire is missing. -/
theorem Replays.exists_missing {report : LoadReport} (h : Replays c ws report d)
    (hcut : report.CutsCycle) : ∃ w ∈ ws, w.flaw? c = none ∧ ¬ w.InPlace d := by
  obtain ⟨p, hp, source, target, hcycle⟩ := hcut
  rw [h.report] at hp
  obtain ⟨w, hw, hline⟩ := List.mem_filterMap.1 hp
  obtain ⟨reason, hrefusal, rfl⟩ := Option.map_eq_some_iff.1 hline
  dsimp only at hcycle
  subst hcycle
  refine ⟨w, hw, ?_⟩
  cases hflaw : w.flaw? c with
  | some reason =>
      rw [WireRecord.refusal?, hflaw, Option.some_or] at hrefusal
      exact absurd (hflaw.trans hrefusal) (w.flaw?_ne_cycle c _ _)
  | none =>
      rw [WireRecord.refusal?, hflaw, Option.none_or] at hrefusal
      split at hrefusal
      · cases hrefusal
      · exact ⟨rfl, ‹_›⟩

/-- If a wire is missing from the records that lead to different slots, forcing them closes a
cycle. -/
theorem Replays.not_acyclic {report : LoadReport} (h : Replays c ws report d) (hc : c.WellWired)
    (hapart : ws.Pairwise EndsApart)
    (hfree : ∀ w ∈ ws, w.Directed → c.plain.driver w.target w.targetPort.index = none)
    (hw : w ∈ ws) (hflaw : w.flaw? c = none) (hmissing : ¬ w.InPlace d) :
    ¬ (forceWires c ws).readerGraph.Acyclic := by
  intro hacyclic
  have hforced := wellWired_forceWires hc ws
  have hback := h.wired.reaches_mono hforced (h.driver_forceWires hc hapart hfree)
    (h.cut w hw hflaw hmissing)
  have hnext : w.target ∈ (forceWires c ws).readerGraph.next w.source :=
    hforced.mem_next_readerGraph_iff_driver.2 ⟨_, inPlace_forceWires hc hapart hw hflaw⟩
  exact hacyclic w.source (hback.cons hnext)

end Document

end LogicCircuit
