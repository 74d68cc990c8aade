import LogicCircuit.Analysis
import LogicCircuit.Proofs.Circuit.Edges

/-!
# What is suggested

`Circuit.suggestions` looks at each gate and at what drives its slots. `Suggests` says what it
looks for: an inverter on an inverter, or an AND or OR with one driver on both slots. It finds
just that wherever slots hold wires that are there (`WellWired.mem_suggestions_iff`).
-/

namespace LogicCircuit.Circuit

variable {c : Circuit} {s : Suggestion} {id inner : ComponentId} {x : Component} {g : Gate}

/-- There is something to suggest. -/
inductive Suggests (c : Circuit) : Suggestion → Prop where
  /-- An inverter drives an inverter. -/
  | doubleNegation {outer inner x y} : c.component? outer = some x → x.kind = .gate .not →
      c.driversOf outer = [some inner] → c.component? inner = some y → y.kind = .gate .not →
      Suggests c (.doubleNegation outer inner)
  /-- One component drives both slots of an AND or OR. -/
  | redundantGate {id x g a} : c.component? id = some x → x.kind = .gate g →
      g = .and ∨ g = .or → c.driversOf id = [some a, some a] → Suggests c (.redundantGate id g)

theorem bind_gate?_eq_some_iff : (c.component? inner).bind (·.kind.gate?) = some g ↔
    ∃ y, c.component? inner = some y ∧ y.kind = .gate g := by
  rw [Option.bind_eq_some_iff]
  refine exists_congr fun y => and_congr_right fun _ => ?_
  cases y.kind <;> simp [Kind.gate?]

/-- What is suggested about a gate is there to suggest. -/
theorem WellWired.suggests_of_suggestion? (h : c.WellWired) (hx : c.component? id = some x)
    (hk : x.kind = .gate g) (hs : c.suggestion? id g (c.driversOf id) = some s) :
    c.Suggests s := by
  have hlength := h.length_driversOf hx
  rw [hk] at hlength
  revert hs
  generalize hdrivers : c.driversOf id = drivers at hlength ⊢
  fun_cases suggestion? c id g drivers with
  | case1 inner rest hinner =>
      intro hs
      obtain rfl : rest = [] := List.length_eq_zero_iff.1 (Nat.succ.inj hlength)
      obtain ⟨y, hy, hky⟩ := bind_gate?_eq_some_iff.1 hinner
      exact Option.some.inj hs ▸ .doubleNegation hx hk hdrivers hy hky
  | case3 a rest | case5 a rest =>
      intro hs
      obtain rfl : rest = [] := List.length_eq_zero_iff.1 (Nat.succ.inj (Nat.succ.inj hlength))
      exact Option.some.inj hs ▸ .redundantGate hx hk (by simp) hdrivers
  | case2 | case4 | case6 | case7 => exact (nomatch ·)

/-- What is suggested is what there is to suggest. -/
theorem WellWired.mem_suggestions_iff (h : c.WellWired) : s ∈ c.suggestions ↔ c.Suggests s := by
  rw [suggestions, List.mem_filterMap]
  constructor
  · rintro ⟨x, hx, hs⟩
    obtain ⟨hlook, g, hk⟩ := mem_gates_iff.1 hx
    rw [hk] at hs
    exact h.suggests_of_suggestion? hlook hk hs
  · have hgate : ∀ {id x g}, c.component? id = some x → x.kind = .gate g →
        c.suggestion? id g (c.driversOf id) = some s →
        ∃ x ∈ c.gates, (x.kind.gate?.bind fun g => c.suggestion? x.id g (c.driversOf x.id)) =
          some s := by
      intro id x g hx hk hs
      have hid : x.id = id := Roster.name_of_get? hx
      refine ⟨x, mem_gates_iff.2 ⟨hid ▸ hx, g, hk⟩, ?_⟩
      rw [hk, hid]
      exact hs
    intro hs
    cases hs with
    | doubleNegation hx hk hdrivers hy hky =>
        refine hgate hx hk ?_
        rw [hdrivers, suggestion?, if_pos (bind_gate?_eq_some_iff.2 ⟨_, hy, hky⟩)]
    | redundantGate hx hk hg hdrivers =>
        refine hgate hx hk ?_
        rcases hg with rfl | rfl <;> rw [hdrivers, suggestion?, if_pos rfl]

end LogicCircuit.Circuit
