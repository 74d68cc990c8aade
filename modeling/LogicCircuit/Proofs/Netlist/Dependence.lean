import LogicCircuit.Proofs.Circuit.Acyclicity
import LogicCircuit.Proofs.Netlist.Buffers

/-!
# Signals that depend on themselves

A name that means something depends on nothing that depends on itself (`Means.not_cyclic`), and in
a netlist whose circuit is built every name that is reached means something. Conversely, if no
name that is reached depends on itself, the search for a driver never meets a name again, so it
ends at a driver (`exists_resolve`), and a gate comes before another only if that one depends on
it (`exists_of_before`): the netlist is built to the end. Together: `refused_iff_cyclic`.
-/

namespace LogicCircuit

namespace Netlist

open Relation (ReflTransGen TransGen)

/-- A signal has a name among its arguments. -/
def Asks (n : Netlist) (a b : String) : Prop := ∃ s ∈ n.signals, s.name = a ∧ b ∈ s.args

/-- A name is reached from the arguments of gates and from the outputs. -/
inductive Reached (n : Netlist) : String → Prop where
  | argument {s : Signal} {name : String} :
      s ∈ n.signals → IsGate s → name ∈ s.args → Reached n name
  | output {name : String} : name ∈ n.outputs → Reached n name
  | step {a b : String} : Reached n a → n.Asks a b → Reached n b

variable {n : Netlist} {d : Circuit} {s : Signal} {p q : Part} {a b name asked : String}
  {level : String → Bool} {on : Bool} {steps : Nat}

/-- What is asked for by what is reached is reached. -/
theorem Reached.of_asks (h : n.Reached a) (hab : ReflTransGen n.Asks a b) : n.Reached b := by
  induction hab with
  | refl => exact h
  | tail _ hasks ih => exact ih.step hasks

/-- A buffer asks for the name that it copies. -/
theorem Buffers.asks (h : n.Buffers a b) : n.Asks a b := by
  obtain ⟨s, hs, hname, -, harg⟩ := h
  exact ⟨s, hs, hname, harg ▸ List.mem_singleton_self b⟩

theorem asks_iff (hn : n.driven.Nodup) (hs : s ∈ n.signals) : n.Asks s.name b ↔ b ∈ s.args := by
  refine ⟨fun ⟨t, ht, hname, hb⟩ => ?_, fun hb => ⟨s, hs, rfl, hb⟩⟩
  rwa [← signal_unique hn hs ht hname]

/-! ## What means something is on no cycle -/

/-- A name without arguments leads to no cycle. -/
theorem not_cyclic_of_not_asks (h : ∀ c, ¬ n.Asks a c) (hab : ReflTransGen n.Asks a b) :
    ¬ TransGen n.Asks b b := by
  rcases hab.cases_head with rfl | ⟨c, hac, -⟩
  · intro hcycle
    obtain ⟨c, hac, -⟩ := TransGen.head'_iff.1 hcycle
    exact h c hac
  · exact absurd hac (h c)

/-- A name whose arguments lead to no cycle leads to none. -/
theorem not_cyclic_of_args
    (h : ∀ c, n.Asks a c → ∀ b, ReflTransGen n.Asks c b → ¬ TransGen n.Asks b b)
    (hab : ReflTransGen n.Asks a b) : ¬ TransGen n.Asks b b := by
  rcases hab.cases_head with rfl | ⟨c, hac, hcb⟩
  · intro hcycle
    obtain ⟨c, hac, hca⟩ := TransGen.head'_iff.1 hcycle
    exact h c hac a hca hcycle
  · exact h c hac b hcb

/-- What means something leads to no cycle. -/
theorem Means.not_cyclic (hn : n.driven.Nodup) (h : n.Means level a on)
    (hab : ReflTransGen n.Asks a b) : ¬ TransGen n.Asks b b := by
  induction h generalizing b with
  | input hname =>
      exact not_cyclic_of_not_asks
        (fun _ ⟨_, hs, heq, _⟩ => not_mem_inputs hn hs (heq ▸ hname)) hab
  | signal _ hs _ ih =>
      exact not_cyclic_of_args (fun c hc _ => ih c ((asks_iff hn hs).1 hc)) hab
  | ground hnew =>
      exact not_cyclic_of_not_asks
        (fun _ ⟨_, hs, heq, _⟩ => hnew (heq ▸ mem_driven_of_signal hs)) hab
  | power hnew =>
      exact not_cyclic_of_not_asks
        (fun _ ⟨_, hs, heq, _⟩ => hnew (heq ▸ mem_driven_of_signal hs)) hab

/-- All that is reached means something. -/
theorem Lit.exists_means_of_reached {e : Circuit} (h : n.Lit level d e) (hname : n.Reached name) :
    ∃ on, n.Means level name on := by
  have hdriven : ∀ {name driver id}, n.resolve name = .ok driver →
      some (partOf driver).id ∈ d.driversOf id → ∃ on, n.Means level name on :=
    fun hdriver hmem => ⟨_, h.means_driver hdriver (h.realizes.has_of_driver hmem)⟩
  induction hname with
  | argument hs hgate harg =>
      obtain ⟨slot, harg⟩ := List.mem_iff_getElem?.1 harg
      obtain ⟨driver, hdriver, hdrives⟩ := h.realizes.exists_driver_gate h.nodup hs hgate harg
      exact hdriven hdriver (List.mem_of_getElem? hdrives)
  | output hname =>
      obtain ⟨driver, hdriver, hdrives⟩ := h.realizes.exists_driver_output hname
      exact hdriven hdriver (List.mem_of_getElem? hdrives)
  | step _ hasks ih =>
      obtain ⟨on, hmeans⟩ := ih
      obtain ⟨s, hs, rfl, hb⟩ := hasks
      obtain ⟨bit, hargs, -⟩ := hmeans.of_signal h.nodup hs
      exact ⟨bit _, hargs _ hb⟩

/-- If the circuit of a netlist is built, nothing that is reached depends on itself. -/
theorem not_cyclic_of_toCircuit (hn : n.driven.Nodup) (happlied : n.FullyApplied)
    (h : n.toCircuit = .ok d) (hname : n.Reached name) : ¬ TransGen n.Asks name name := by
  obtain ⟨e, -, hlit⟩ := (realizes_of_toCircuit h).exists_lit hn happlied
    (run_toCircuit h).unforced.acyclic (fun _ => Iff.rfl) fun _ => false
  obtain ⟨on, hmeans⟩ := hlit.exists_means_of_reached hname
  exact hmeans.not_cyclic hn .refl

/-! ## The search for a driver -/

/-- The search follows arguments to the gate that it ends at. -/
theorem reflTransGen_of_resolveWithin (happlied : n.FullyApplied)
    (h : n.resolveWithin asked steps name = .ok (.gate a)) : ReflTransGen n.Asks name a := by
  induction steps generalizing name with
  | zero => cases h
  | succ steps ih =>
      unfold resolveWithin at h
      split at h
      case isTrue => cases h
      case isFalse =>
        split at h
        case h_1 =>
          cases h
          exact .refl
        case h_2 => cases h
        case h_3 args hs =>
          obtain ⟨hmem, rfl⟩ := mem_of_signal? hs
          obtain ⟨arg, rfl⟩ := List.length_eq_one_iff.1 (happlied _ hmem)
          exact .head ⟨_, hmem, rfl, List.mem_singleton_self arg⟩ (ih h)
        case h_4 => split at h <;> cases h

/-- A gate that comes before a gate is one that this one depends on, and is reached from it. -/
theorem exists_of_before (happlied : n.FullyApplied) (h : n.Before (.gate a) q) : n.Reached a ∧
    ((∃ b, q = .gate b ∧ TransGen n.Asks b a) ∨ ∃ name, q = .output name) := by
  obtain ⟨slot, driver, hdriver, hfeeds⟩ := h
  cases driver with
  | input name => cases hdriver
  | constant on => cases hdriver
  | gate a =>
      cases hdriver
      cases q with
      | input name => cases hfeeds
      | constant on => cases hfeeds
      | output name =>
          obtain ⟨hname, -, hresolve⟩ := hfeeds
          have hpath := reflTransGen_of_resolveWithin happlied hresolve
          exact ⟨(Reached.output hname).of_asks hpath, .inr ⟨name, rfl⟩⟩
      | gate b =>
          obtain ⟨s, hs, rfl, hgate, arg, harg, hresolve⟩ := hfeeds
          have hmem := List.mem_of_getElem? harg
          have hpath := reflTransGen_of_resolveWithin happlied hresolve
          exact ⟨(Reached.argument hs hgate hmem).of_asks hpath,
            .inl ⟨s.name, rfl, .head' ⟨s, hs, rfl, hmem⟩ hpath⟩⟩

/-- What comes after a gate is a gate that depends on it, or an output. -/
theorem exists_of_transGen_before (happlied : n.FullyApplied)
    (h : TransGen n.Before (.gate a) q) :
    (∃ b, q = .gate b ∧ TransGen n.Asks b a) ∨ ∃ name, q = .output name := by
  induction h with
  | single hbefore => exact (exists_of_before happlied hbefore).2
  | tail _ hbefore ih =>
      rcases ih with ⟨b, rfl, hba⟩ | ⟨name, rfl⟩
      · rcases (exists_of_before happlied hbefore).2 with ⟨c, rfl, hcb⟩ | houtput
        · exact .inl ⟨c, rfl, hcb.trans hba⟩
        · exact .inr houtput
      · obtain ⟨_, driver, hdriver, -⟩ := hbefore
        cases driver <;> cases hdriver

/-- What comes before something and after something is a gate. -/
theorem exists_gate_of_before {r : Part} (hpq : n.Before p q) (hqr : n.Before q r) :
    ∃ a, q = .gate a := by
  obtain ⟨_, _, -, hfeeds⟩ := hpq
  obtain ⟨_, driver, rfl, -⟩ := hqr
  cases driver with
  | input name => cases hfeeds
  | constant on => cases hfeeds
  | gate a => exact ⟨a, rfl⟩

/-! ## When a netlist is built -/

variable (hn : n.driven.Nodup) (happlied : n.FullyApplied)
  (hdefined : ∀ name, n.Reached name → n.Defined name)
  (hcyclic : ∀ name, n.Reached name → ¬ TransGen n.Asks name name)

include hn happlied hdefined hcyclic

/-- The chain of buffers behind a name that is reached ends at a driver. It consists of names that
are reached as well, so it does not return to itself, and its end is defined. -/
theorem exists_resolve (hname : n.Reached name) : ∃ driver, n.resolve name = .ok driver := by
  have hreached : ∀ {a}, ReflTransGen n.Buffers name a → n.Reached a := fun hchain =>
    hname.of_asks (ReflTransGen.mono (fun _ _ => Buffers.asks) _ _ hchain)
  rcases ends_or_circles hn happlied name with
    ⟨a, answer, hchain, hends, hanswer⟩ | ⟨a, hchain, hcycle⟩
  · cases hends with
    | driven _ => exact ⟨_, hanswer name⟩
    | undefined hundefined => exact absurd (hdefined a (hreached hchain)) hundefined
  · exact absurd (TransGen.mono (fun _ _ => Buffers.asks) _ _ hcycle)
      (hcyclic a (hreached hchain))

/-- If all that is reached is defined and does not depend on itself, the netlist is built to the
end. -/
theorem buildable_of_reached : n.Buildable where
  nodup := hn
  arity := happlied
  args _ hs hgate _ harg :=
    exists_resolve hn happlied hdefined hcyclic (.argument hs hgate harg)
  outputs _ hname := exists_resolve hn happlied hdefined hcyclic (.output hname)
  acyclic p hcycle := by
    obtain ⟨q, hpq, -⟩ := TransGen.head'_iff.1 hcycle
    obtain ⟨r, -, hrp⟩ := TransGen.tail'_iff.1 hcycle
    obtain ⟨a, rfl⟩ := exists_gate_of_before hrp hpq
    have hreached := (exists_of_before happlied hpq).1
    rcases exists_of_transGen_before happlied hcycle with ⟨b, hb, hba⟩ | ⟨name, hname⟩
    · cases hb
      exact hcyclic a hreached hba
    · cases hname

omit hcyclic

/-- If all that is reached is defined, the netlist is refused exactly if something that is reached
depends on itself. -/
theorem refused_iff_cyclic : (∃ reason, n.toCircuit = .error reason) ↔
    ∃ name, n.Reached name ∧ TransGen n.Asks name name := by
  constructor
  · rintro ⟨reason, hrefused⟩
    by_contra hnone
    have hbuildable := buildable_of_reached hn happlied hdefined fun name hname hcycle =>
      hnone ⟨name, hname, hcycle⟩
    obtain ⟨d, hbuilt, -⟩ := exists_realizes hbuildable
    rw [hbuilt] at hrefused
    cases hrefused
  · rintro ⟨name, hname, hcycle⟩
    cases h : n.toCircuit with
    | error reason => exact ⟨reason, rfl⟩
    | ok d => exact absurd hcycle (not_cyclic_of_toCircuit hn happlied h hname)

end Netlist

end LogicCircuit
