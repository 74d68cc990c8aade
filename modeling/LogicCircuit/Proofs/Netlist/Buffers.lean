import LogicCircuit.Proofs.Netlist.Values

/-!
# Chains of buffers

A buffer copies one name, so the buffers behind a name make up a chain. It ends at a name that is
driven by something else than a buffer or by nothing (`Ends`), or it returns to itself
(`Circles`). The search for a driver follows the chain. Names on a chain that does not return are
all different, so there are no more buffers on it than signals, and the search reaches its end; it
runs out of steps exactly on a chain that returns: `resolve_eq_iff` and `runsOut_iff`.
-/

namespace LogicCircuit

namespace Netlist

open Relation (ReflTransGen TransGen)

/-- An input, a signal, or the name of a constant. -/
def Defined (n : Netlist) (name : String) : Prop :=
  name ∈ n.driven ∨ name = "gnd" ∨ name = "vdd"

instance (n : Netlist) (name : String) : Decidable (n.Defined name) :=
  inferInstanceAs (Decidable (_ ∨ _))

/-- A name is a buffer that copies another one. -/
def Buffers (n : Netlist) (a b : String) : Prop :=
  ∃ s ∈ n.signals, s.name = a ∧ s.operation = .buffer ∧ s.args = [b]

instance (n : Netlist) (a b : String) : Decidable (n.Buffers a b) :=
  inferInstanceAs (Decidable (∃ s ∈ n.signals, _))

/-- A name that is no buffer is driven by an input, a gate or a constant. -/
inductive DrivenBy (n : Netlist) : String → Driver → Prop where
  | input {name : String} : name ∈ n.inputs → DrivenBy n name (.input name)
  | gate {s : Signal} : s ∈ n.signals → IsGate s → DrivenBy n s.name (.gate s.name)
  | constant {s : Signal} {on : Bool} : s ∈ n.signals → s.operation = .constant on →
      DrivenBy n s.name (.constant on)
  | default {name : String} {on : Bool} : name ∉ n.driven → defaultConstant? name = some on →
      DrivenBy n name (.constant on)

/-- What a search ends with at a name that is no buffer. -/
inductive Ends (n : Netlist) : String → Except NetlistError Driver → Prop where
  | driven {a : String} {driver : Driver} : n.DrivenBy a driver → Ends n a (.ok driver)
  | undefined {a : String} : ¬ n.Defined a → Ends n a (.error (.undefined a))

/-- The chain of buffers behind a name returns to itself. -/
def Circles (n : Netlist) (name : String) : Prop :=
  ∃ a, ReflTransGen n.Buffers name a ∧ TransGen n.Buffers a a

/-- The search for what drives a name runs out of steps: of all answers this one alone says which
name was asked for. -/
def RunsOut (n : Netlist) (name : String) : Prop :=
  ∀ asked, n.resolveWithin asked (n.signals.length + 1) name = .error (.undefined asked)

variable {n : Netlist} {s : Signal} {a b name : String} {driver : Driver} {steps : Nat}
  {visited : List String} {answer answer' : Except NetlistError Driver}

theorem ends_ok_iff : n.Ends a (.ok driver) ↔ n.DrivenBy a driver := by
  refine ⟨fun h => ?_, .driven⟩
  cases h with
  | driven h => exact h

theorem ends_error_iff {reason : NetlistError} :
    n.Ends a (.error reason) ↔ ¬ n.Defined a ∧ reason = .undefined a := by
  constructor
  · intro h
    cases h with
    | undefined h => exact ⟨h, rfl⟩
  · rintro ⟨h, rfl⟩
    exact .undefined h

/-! ## One name -/

theorem not_defined_iff : ¬ n.Defined name ↔ name ∉ n.driven ∧ defaultConstant? name = none := by
  simp only [Defined, not_or, defaultConstant?]
  split <;> simp_all

/-- A buffer of an applied netlist has the argument that it copies. -/
theorem FullyApplied.exists_arg (happlied : n.FullyApplied) (hs : s ∈ n.signals)
    (hop : s.operation = .buffer) : ∃ arg, s.args = [arg] :=
  List.length_eq_one_iff.1 ((happlied s hs).trans (hop ▸ rfl))

/-- Every name is a buffer, or else it ends the search. -/
theorem buffers_or_ends (happlied : n.FullyApplied) (name : String) :
    (∃ b, n.Buffers name b) ∨ ∃ answer, n.Ends name answer := by
  by_cases hdriven : name ∈ n.driven
  · rcases List.mem_append.1 hdriven with hinput | hsignal
    · exact .inr ⟨_, .driven (.input hinput)⟩
    · obtain ⟨s, hs, rfl⟩ := List.mem_map.1 hsignal
      cases hop : s.operation with
      | gate g => exact .inr ⟨_, .driven (.gate hs ⟨g, hop⟩)⟩
      | constant on => exact .inr ⟨_, .driven (.constant hs hop)⟩
      | buffer =>
          obtain ⟨arg, harg⟩ := happlied.exists_arg hs hop
          exact .inl ⟨arg, s, hs, rfl, hop, harg⟩
  · cases hdefault : defaultConstant? name with
    | some on => exact .inr ⟨_, .driven (.default hdriven hdefault)⟩
    | none => exact .inr ⟨_, .undefined (not_defined_iff.2 ⟨hdriven, hdefault⟩)⟩

/-- A name whose chain returns to itself is a buffer of such a name. -/
theorem Circles.exists_buffers (h : n.Circles name) : ∃ b, n.Buffers name b ∧ n.Circles b := by
  obtain ⟨a, hname, hcycle⟩ := h
  rcases hname.cases_head with rfl | ⟨b, hstep, hb⟩
  · obtain ⟨b, hstep, hb⟩ := TransGen.head'_iff.1 hcycle
    exact ⟨b, hstep, name, hb, hcycle⟩
  · exact ⟨b, hstep, a, hb, hcycle⟩

section Search

variable (hn : n.driven.Nodup)

include hn

/-- A name copies one name at most. -/
theorem Buffers.eq {c : String} (hab : n.Buffers a b) (hac : n.Buffers a c) : b = c := by
  obtain ⟨s, hs, rfl, -, hb⟩ := hab
  obtain ⟨t, ht, hname, -, hc⟩ := hac
  obtain rfl := signal_unique hn hs ht hname
  exact List.singleton_inj.1 (hb.symm.trans hc)

/-- The search goes on with the name that a buffer copies. -/
theorem Buffers.resolveWithin_eq (h : n.Buffers a b) (asked : String) (steps : Nat) :
    n.resolveWithin asked (steps + 1) a = n.resolveWithin asked steps b := by
  obtain ⟨s, hs, rfl, hop, harg⟩ := h
  exact resolveWithin_buffer hn hs hop harg asked steps

/-- The search ends at a name that is no buffer. -/
theorem Ends.resolveWithin_eq (h : n.Ends a answer) (asked : String) (steps : Nat) :
    n.resolveWithin asked (steps + 1) a = answer := by
  cases h with
  | driven h =>
      cases h with
      | input hinput => exact resolveWithin_input hinput asked steps
      | gate hs hgate => exact resolveWithin_gate hn hs hgate asked steps
      | constant hs hop => exact resolveWithin_constant hn hs hop asked steps
      | default hnew hdefault => exact resolveWithin_default hnew hdefault asked steps
  | undefined h =>
      obtain ⟨hnew, hdefault⟩ := not_defined_iff.1 h
      exact resolveWithin_undefined hnew hdefault asked steps

/-- A name where the search ends copies nothing. -/
theorem Ends.not_buffers (h : n.Ends a answer) : ¬ n.Buffers a b := by
  rintro ⟨s, hs, rfl, hop, -⟩
  have hdriven : s.name ∈ n.driven := mem_driven_of_signal hs
  cases h with
  | undefined h => exact h (.inl hdriven)
  | driven h =>
      generalize hname : s.name = name at h
      cases h with
      | input hinput => exact not_mem_inputs hn hs (hname ▸ hinput)
      | default hnew _ => exact hnew (hname ▸ hdriven)
      | gate ht hgate =>
          obtain ⟨g, hg⟩ := hgate
          rw [signal_unique hn ht hs hname, hg] at hop
          cases hop
      | constant ht hconstant =>
          rw [signal_unique hn ht hs hname, hconstant] at hop
          cases hop

/-! ## Chains -/

/-- A chain ends in one place only. -/
theorem Ends.unique (hname : ReflTransGen n.Buffers name a) (ha : n.Ends a answer)
    (hname' : ReflTransGen n.Buffers name b) (hb : n.Ends b answer') : a = b := by
  have hunique : Relator.RightUnique n.Buffers := fun _ _ _ hab hac => hab.eq hn hac
  rcases hname.total_of_right_unique hunique hname' with h | h
  · rcases h.cases_head with rfl | ⟨c, hac, -⟩
    · rfl
    · exact absurd hac (ha.not_buffers hn)
  · rcases h.cases_head with rfl | ⟨c, hbc, -⟩
    · rfl
    · exact absurd hbc (hb.not_buffers hn)

/-- A chain that returns to itself does not end. -/
theorem Circles.not_ends (h : n.Circles name) (hname : ReflTransGen n.Buffers name a) :
    ¬ n.Ends a answer := by
  induction hname using ReflTransGen.head_induction_on with
  | refl =>
      obtain ⟨b, hstep, -⟩ := h.exists_buffers
      exact fun hends => hends.not_buffers hn hstep
  | head hstep _ ih =>
      obtain ⟨b, hstep', hb⟩ := h.exists_buffers
      obtain rfl := hstep.eq hn hstep'
      exact ih hb

/-- Whatever the number of steps, the search runs out of them on a chain that returns to itself.
-/
theorem Circles.resolveWithin_eq (h : n.Circles name) (asked : String) (steps : Nat) :
    n.resolveWithin asked steps name = .error (.undefined asked) := by
  induction steps generalizing name with
  | zero => rfl
  | succ steps ih =>
      obtain ⟨b, hstep, hb⟩ := h.exists_buffers
      rw [hstep.resolveWithin_eq hn, ih hb]

variable (happlied : n.FullyApplied)

include happlied

/-- The search reaches the end of the chain if the buffers that it has met are not too many,
unless the chain returns to itself. Otherwise they are all different, so there are no more of them
than signals. -/
theorem exists_ends_or_circles (hnodup : visited.Nodup)
    (hvisited : ∀ v ∈ visited, v ∈ n.signals.map (·.name) ∧ TransGen n.Buffers v name)
    (hsteps : steps + visited.length = n.signals.length + 1) :
    (∃ a answer, ReflTransGen n.Buffers name a ∧ n.Ends a answer ∧
      ∀ asked, n.resolveWithin asked steps name = answer) ∨ n.Circles name := by
  induction steps generalizing name visited with
  | zero =>
      have hle := (hnodup.subperm fun v hv => (hvisited v hv).1).length_le
      rw [List.length_map] at hle
      omega
  | succ steps ih =>
      rcases buffers_or_ends happlied name with ⟨b, hstep⟩ | ⟨answer, hends⟩
      · by_cases hmet : name ∈ visited
        · exact .inr ⟨name, .refl, (hvisited name hmet).2⟩
        have hsignal : name ∈ n.signals.map (·.name) := by
          obtain ⟨s, hs, hname, -⟩ := hstep
          exact List.mem_map.2 ⟨s, hs, hname⟩
        have hvisited' : ∀ v ∈ name :: visited,
            v ∈ n.signals.map (·.name) ∧ TransGen n.Buffers v b :=
          List.forall_mem_cons.2 ⟨⟨hsignal, .single hstep⟩,
            fun v hv => ⟨(hvisited v hv).1, (hvisited v hv).2.tail hstep⟩⟩
        rcases ih (List.nodup_cons.2 ⟨hmet, hnodup⟩) hvisited'
            (by rw [List.length_cons]; omega) with
          ⟨a, answer, hb, hends, hanswer⟩ | ⟨a, hb, hcycle⟩
        · refine .inl ⟨a, answer, .head hstep hb, hends, fun asked => ?_⟩
          rw [hstep.resolveWithin_eq hn, hanswer]
        · exact .inr ⟨a, .head hstep hb, hcycle⟩
      · exact .inl
          ⟨name, answer, .refl, hends, fun asked => hends.resolveWithin_eq hn asked steps⟩

/-- The chain behind every name ends, and the search finds its end, or it returns to itself. -/
theorem ends_or_circles (name : String) :
    (∃ a answer, ReflTransGen n.Buffers name a ∧ n.Ends a answer ∧
      ∀ asked, n.resolveWithin asked (n.signals.length + 1) name = answer) ∨ n.Circles name :=
  exists_ends_or_circles hn happlied List.nodup_nil (fun _ hv => nomatch hv) rfl

/-- The search answers with the end of the chain, or with the name itself if there is no end. -/
theorem resolve_eq_iff : n.resolve name = answer ↔
    (∃ a, ReflTransGen n.Buffers name a ∧ n.Ends a answer) ∨
      n.Circles name ∧ answer = .error (.undefined name) := by
  constructor
  · rintro rfl
    rcases ends_or_circles hn happlied name with ⟨a, answer, hname, hends, hanswer⟩ | hcircles
    · exact .inl ⟨a, hname, by rwa [resolve, hanswer]⟩
    · exact .inr ⟨hcircles, hcircles.resolveWithin_eq hn name _⟩
  · rintro (⟨a, hname, hends⟩ | ⟨hcircles, rfl⟩)
    · rcases ends_or_circles hn happlied name with
        ⟨b, answer', hname', hends', hanswer⟩ | hcircles
      · obtain rfl := Ends.unique hn hname' hends' hname hends
        -- both answers are what one step gives
        rw [resolve, hanswer, ← hends'.resolveWithin_eq hn name 0, hends.resolveWithin_eq hn]
      · exact absurd hends (hcircles.not_ends hn hname)
    · exact hcircles.resolveWithin_eq hn name _

/-- The search runs out of steps exactly on a chain that returns to itself. -/
theorem runsOut_iff : n.RunsOut name ↔ n.Circles name := by
  refine ⟨fun h => ?_, fun h asked => h.resolveWithin_eq hn asked _⟩
  rcases ends_or_circles hn happlied name with ⟨a, answer, -, hends, hanswer⟩ | hcircles
  · have hevery : ∀ asked, answer = .error (.undefined asked) := fun asked =>
      (hanswer asked).symm.trans (h asked)
    cases hends with
    | driven _ => cases hevery name
    | undefined _ =>
        -- no name is both of two different ones
        have htwo := (hevery "0").symm.trans (hevery "1")
        simp at htwo
  · exact hcircles

end Search

end Netlist

end LogicCircuit
