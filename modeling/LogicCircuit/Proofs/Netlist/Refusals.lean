import LogicCircuit.Proofs.Netlist.RoundTrip
import Mathlib.Data.List.Duplicate

/-!
# Refused netlists

A circuit is written as a netlist unless a name is taken twice. The names of the signals that the
text drives are taken, except that a source without a label may be called `gnd` or `vdd` for
nothing. But every sink takes a name too, and no signal bears it: a sink shows in the text by its
outputs alone (`sinkNames`). So a netlist is refused for a name that two signals would have, and
also for one that a sink has and a signal or another sink would have: `netlist_refusals`. The
output of a sink that has one slot and no label is called like the sink, hence such a sink is not
written (`unlabelled_bulb_refused`).
-/

namespace LogicCircuit

namespace Netlist

open Circuit (mem_gates_iff mem_sources_iff mem_sinks_iff)

/-- The names that sinks take although no signal bears them. -/
def sinkNames (c : Circuit) : List String := (c.sinks.filter claimsSignal).map signalOf

/-- All names that are taken, in the order in which they are. -/
def taken (c : Circuit) : List String := claimed c ++ (allOutputs c).map (·.1)

variable {c : Circuit} {x : Component} {name : String} {seen names : List String}

/-! ## Names that are taken twice -/

/-- The name that is reported is taken twice. -/
theorem duplicate_of_repeated? (h : repeated? seen names = some name) :
    (seen ++ names).Duplicate name := by
  rw [List.duplicate_iff_two_le_count]
  induction names generalizing seen with
  | nil => cases h
  | cons first names ih =>
      unfold repeated? at h
      split at h
      case isTrue hseen =>
        obtain rfl := Option.some.inj h
        have hbefore : 0 < seen.count first := List.count_pos_iff.2 hseen
        rw [List.count_append, List.count_cons_self]
        omega
      case isFalse =>
        have hmoved := ih h
        rwa [List.cons_append, ← List.perm_middle.count_eq] at hmoved

/-- Either some name is taken twice, and one such is reported, or the text is written. -/
theorem toNetlist_cases (c : Circuit) :
    (∃ name, c.toNetlist = .error (.redefined name) ∧ (taken c).Duplicate name) ∨
      (c.toNetlist = .ok (headerText c ++ bodyText c) ∧ (taken c).Nodup) := by
  unfold Circuit.toNetlist write taken
  cases hclaimed : repeated? [] (claimed c) with
  | some name =>
      exact .inl ⟨name, rfl, (duplicate_of_repeated? hclaimed).mono_sublist
        (List.sublist_append_left ..)⟩
  | none =>
      cases houtputs : repeated? (claimed c) ((allOutputs c).map (·.1)) with
      | some name => exact .inl ⟨name, rfl, duplicate_of_repeated? houtputs⟩
      | none =>
          obtain ⟨hclaimed, -⟩ := repeated?_eq_none_iff.1 hclaimed
          obtain ⟨houtputs, hnew⟩ := repeated?_eq_none_iff.1 houtputs
          exact .inr ⟨rfl, hclaimed.append houtputs fun name hname hout => hnew name hout hname⟩

/-! ## Which names are taken -/

/-- A name is taken unless it is one of those for constants. -/
theorem claimsSignal_of_signalOf (hname : signalOf x ∉ ["gnd", "vdd"]) : claimsSignal x := by
  simp only [List.mem_cons, List.not_mem_nil, or_false, not_or] at hname
  simp [claimsSignal, hname.1, hname.2]

/-- Whatever takes a name and is no sink is written under it. -/
theorem named_of_claimsSignal (hx : c.component? x.id = some x) (hsink : ¬ x.kind.isSink)
    (hclaims : claimsSignal x) : x ∈ named c := by
  rcases named_or_default hx hsink with hmem | ⟨on, hconstant, hvaries, hsignal⟩
  · exact hmem
  obtain ⟨s, hk⟩ : ∃ s, x.kind = .source s := by
    cases hk : x.kind with
    | gate g => simp [hk, Kind.operation] at hconstant
    | source s => exact ⟨s, rfl⟩
    | sink s => exact absurd (by rw [hk]; rfl) hsink
  -- a constant without a label bears the name that stands for it, and that is not taken
  have hlabel : x.label.isSome := by
    have hgate : x.kind.isGate = false := by rw [hk]; rfl
    cases on <;> simpa [claimsSignal, hgate, hsignal] using hclaims
  have hnamed : isNamedConstant x := by simp [isNamedConstant, hvaries, hlabel]
  exact List.mem_append_right _ (List.mem_append_left _
    (List.mem_filter.2 ⟨mem_sources_iff.2 ⟨hx, s, hk⟩, hnamed⟩))

theorem not_isSink_of_named (hx : x ∈ named c) : ¬ x.kind.isSink := by
  rcases List.mem_append.1 hx with hx | hx
  · obtain ⟨-, s, hk⟩ := mem_sources_iff.1 (List.mem_filter.1 hx).1
    simp [hk, Kind.isSink]
  · rcases List.mem_append.1 hx with hx | hx
    · obtain ⟨-, s, hk⟩ := mem_sources_iff.1 (List.mem_filter.1 hx).1
      simp [hk, Kind.isSink]
    · obtain ⟨-, g, hk⟩ := mem_gates_iff.1 hx
      simp [hk, Kind.isSink]

/-- Names are taken by components that are written under them, and by sinks. -/
theorem perm_claiming (c : Circuit) : (c.components.entries.filter claimsSignal).Perm
    ((named c).filter claimsSignal ++ c.sinks.filter claimsSignal) := by
  have hentries : c.components.entries.Nodup := (Circuit.nodup_ids c).of_map
  have hsinks : c.sinks.Nodup := hentries.filter _
  have hapart : ∀ x ∈ (named c).filter claimsSignal, x ∉ c.sinks.filter claimsSignal :=
    fun x hx hsink => not_isSink_of_named (List.mem_filter.1 hx).1
      (mem_sinks_iff.1 (List.mem_filter.1 hsink).1).2
  refine (List.perm_ext_iff_of_nodup (hentries.filter _)
    (((nodup_named c).filter _).append (hsinks.filter _) fun x hx => hapart x hx)).2 fun x => ?_
  simp only [List.mem_append, List.mem_filter]
  constructor
  · rintro ⟨hx, hclaims⟩
    have hfound : c.component? x.id = some x := Roster.mem_entries_iff.1 hx
    by_cases hsink : x.kind.isSink
    · exact .inr ⟨mem_sinks_iff.2 ⟨hfound, hsink⟩, hclaims⟩
    · exact .inl ⟨named_of_claimsSignal hfound hsink hclaims, hclaims⟩
  · rintro (⟨hx, hclaims⟩ | ⟨hx, hclaims⟩)
    · exact ⟨Roster.mem_entries_iff.2 (component?_of_named hx), hclaims⟩
    · exact ⟨Roster.mem_entries_iff.2 (mem_sinks_iff.1 hx).1, hclaims⟩

/-- The names that are taken are those of the components that take theirs, of the outputs and of
the sinks. -/
theorem perm_taken (c : Circuit) : (taken c).Perm
    (((named c).filter claimsSignal).map signalOf ++ (allOutputs c).map (·.1) ++
      sinkNames c) := by
  have hclaimed : (claimed c).Perm
      (((named c).filter claimsSignal).map signalOf ++ sinkNames c) := by
    have hmap := (perm_claiming c).map signalOf
    rwa [List.map_append] at hmap
  refine (hclaimed.append_right _).trans ?_
  rw [List.append_assoc, List.append_assoc]
  exact List.perm_append_comm.append_left _

/-- A name that is taken twice is the name of two signals or that of a sink as well. -/
theorem duplicate_of_taken (h : (taken c).Duplicate name) :
    ((ofCircuit c).driven ++ sinkNames c).Duplicate name := by
  rw [List.duplicate_iff_two_le_count, (perm_taken c).count_eq,
    ← List.duplicate_iff_two_le_count] at h
  rw [driven_ofCircuit]
  exact h.mono_sublist
    (((List.filter_sublist.map signalOf).append_right _).append_right _)

/-- Any name except those for constants is taken by everything that would have it. -/
theorem duplicate_taken (hname : name ∉ ["gnd", "vdd"])
    (h : ((ofCircuit c).driven ++ sinkNames c).Duplicate name) : (taken c).Duplicate name := by
  have hclaims : ∀ x ∈ named c, signalOf x = name → claimsSignal x := by
    rintro x - rfl
    exact claimsSignal_of_signalOf hname
  have hcount : (((named c).filter claimsSignal).map signalOf).count name =
      ((named c).map signalOf).count name := by
    rw [List.count_eq_countP, List.count_eq_countP, List.countP_map, List.countP_map,
      List.countP_filter]
    refine List.countP_congr fun x hx => ?_
    simpa using hclaims x hx
  rw [List.duplicate_iff_two_le_count, driven_ofCircuit] at h
  rw [List.duplicate_iff_two_le_count, (perm_taken c).count_eq]
  simpa only [List.count_append, hcount] using h

/-- The output of a sink with one slot and no label is called like the sink. -/
theorem duplicate_of_unlabelled (hwired : c.WellWired) (hx : x ∈ c.sinks)
    (hlabel : x.label = none) (hslots : x.arity = 1) (hname : signalOf x ∉ ["gnd", "vdd"]) :
    ((ofCircuit c).driven ++ sinkNames c).Duplicate (signalOf x) := by
  obtain ⟨hfound, hsink⟩ := mem_sinks_iff.1 hx
  have hsignal : signalOf x = signalName x.displayName := by
    cases hk : x.kind with
    | sink s => simp [signalOf, hk, Component.displayName, hlabel]
    | gate g => simp [hk, Kind.isSink] at hsink
    | source s => simp [hk, Kind.isSink] at hsink
  have houtput : signalOf x ∈ (ofCircuit c).driven := by
    have hslot : 0 < (c.driversOf x.id).length := by
      rw [hwired.length_driversOf hfound, ← (hwired.formed hfound).slots]
      exact Nat.lt_of_lt_of_eq Nat.one_pos hslots.symm
    have hout := mem_allOutputs_iff.2 ⟨x, hx, 0, _, List.getElem?_eq_getElem hslot, rfl⟩
    rw [if_neg (by omega), ← hsignal] at hout
    rw [driven_ofCircuit]
    exact List.mem_append_right _ (List.mem_map_of_mem hout)
  rw [List.duplicate_iff_two_le_count, List.count_append]
  have hdriven := List.count_pos_iff.2 houtput
  have hreserved : 0 < (sinkNames c).count (signalOf x) :=
    List.count_pos_iff.2 (List.mem_map_of_mem (List.mem_filter.2
      ⟨hx, claimsSignal_of_signalOf hname⟩))
  omega

end Netlist

/-- When a reachable circuit is not written as a netlist. The reason is always one name, and it is
that of two signals of the text, or that of a sink and also of a signal or of another sink. Any
such name other than `gnd` and `vdd` has the circuit refused. If the names of the sinks are
different from each other and from those of the signals, then only a name of two signals is ever
reported, and the circuit is written when all signals have different names. A sink with one slot
and without a label always has its circuit refused, since its output is called like the sink. -/
theorem netlist_refusals {c : Circuit} (h : c.Reachable) :
    (∀ reason, c.toNetlist = .error reason → ∃ name, reason = .redefined name ∧
      ((Netlist.ofCircuit c).driven ++ Netlist.sinkNames c).Duplicate name) ∧
    (∀ name ∉ ["gnd", "vdd"],
      ((Netlist.ofCircuit c).driven ++ Netlist.sinkNames c).Duplicate name →
        ∃ other, c.toNetlist = .error (.redefined other)) ∧
    ((Netlist.sinkNames c).Nodup →
      (∀ name ∈ Netlist.sinkNames c, name ∉ (Netlist.ofCircuit c).driven) →
        (∀ name, c.toNetlist = .error (.redefined name) →
          (Netlist.ofCircuit c).driven.Duplicate name) ∧
        ((Netlist.ofCircuit c).driven.Nodup → ∃ text, c.toNetlist = .ok text)) ∧
    ∀ x ∈ c.sinks, x.label = none → x.arity = 1 → Netlist.signalOf x ∉ ["gnd", "vdd"] →
      ∃ name, c.toNetlist = .error (.redefined name) := by
  have hreason : ∀ reason, c.toNetlist = .error reason → ∃ name, reason = .redefined name ∧
      ((Netlist.ofCircuit c).driven ++ Netlist.sinkNames c).Duplicate name := by
    intro reason hreason
    rcases Netlist.toNetlist_cases c with ⟨name, hname, htwice⟩ | ⟨htext, -⟩
    · rw [hname] at hreason
      exact ⟨name, (Except.error.inj hreason).symm, Netlist.duplicate_of_taken htwice⟩
    · rw [htext] at hreason
      cases hreason
  have hrefused : ∀ name ∉ ["gnd", "vdd"],
      ((Netlist.ofCircuit c).driven ++ Netlist.sinkNames c).Duplicate name →
        ∃ other, c.toNetlist = .error (.redefined other) := by
    intro name hname htwice
    rcases Netlist.toNetlist_cases c with ⟨other, hother, -⟩ | ⟨-, hnodup⟩
    · exact ⟨other, hother⟩
    · exact absurd hnodup (Netlist.duplicate_taken hname htwice).not_nodup
  refine ⟨hreason, hrefused, fun hsinks hapart => ⟨fun name hname => ?_, fun hdriven => ?_⟩,
    fun x hx hlabel hslots hname => hrefused _ hname
      (Netlist.duplicate_of_unlabelled h.wellWired hx hlabel hslots hname)⟩
  · obtain ⟨_, ⟨rfl⟩, htwice⟩ := hreason _ hname
    rw [List.duplicate_iff_two_le_count, List.count_append] at htwice
    rw [List.duplicate_iff_two_le_count]
    by_cases hmem : name ∈ Netlist.sinkNames c
    · have hnone := List.count_eq_zero.2 (hapart name hmem)
      have hone := List.nodup_iff_count_le_one.1 hsinks name
      omega
    · have hnone := List.count_eq_zero.2 hmem
      omega
  · rcases Netlist.toNetlist_cases c with ⟨name, -, htwice⟩ | ⟨htext, -⟩
    · have hall : ((Netlist.ofCircuit c).driven ++ Netlist.sinkNames c).Nodup :=
        hdriven.append hsinks fun name hname hsink => hapart name hsink hname
      exact absurd hall (Netlist.duplicate_of_taken htwice).not_nodup
    · exact ⟨_, htext⟩

/-- The sink of the patch board takes the name `d`, which no signal has, and its four outputs are
named after its label, so the board is written. -/
theorem netlist_refusals_patchBoard : patchBoard.Reachable ∧
    Netlist.sinkNames patchBoard = ["d"] ∧
    (Netlist.ofCircuit patchBoard).driven =
      ["A_in", "Z", "g", "n", "Out_0", "Out_1", "Out_2", "Out_3"] ∧
    ∃ text, patchBoard.toNetlist = .ok text := by
  have hreach : patchBoard.Reachable := reachable_applyAll _
  have hsinks : Netlist.sinkNames patchBoard = ["d"] := by decide +kernel
  have hdriven : (Netlist.ofCircuit patchBoard).driven =
      ["A_in", "Z", "g", "n", "Out_0", "Out_1", "Out_2", "Out_3"] := by decide +kernel
  obtain ⟨-, -, hwritten, -⟩ := netlist_refusals hreach
  rw [hsinks, hdriven] at hwritten
  exact ⟨hreach, hsinks, hdriven, (hwritten (by decide) (by decide)).2 (by decide)⟩

/-- A switch that drives a bulb, both without labels. -/
def switchedLamp : Circuit :=
  Edit.applyAll
    [.add ((Component.source .switch .origin).withId "toggle") (by decide),
      .add ((Component.sink .bulb .origin).withId "lantern") (by decide),
      .connect "toggle" "lantern" 0]
    .empty

/-- The two signals that the text would have are different, and yet the bulb's own name is
reported as taken twice. -/
theorem unlabelled_bulb_refused : switchedLamp.Reachable ∧
    (Netlist.ofCircuit switchedLamp).driven = ["toggle", "lantern"] ∧
    switchedLamp.toNetlist = .error (.redefined "lantern") :=
  ⟨reachable_applyAll _, by decide +kernel, by decide +kernel⟩

end LogicCircuit
