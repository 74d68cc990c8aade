import LogicCircuit.Proofs.Samples.Ring
import LogicCircuit.Proofs.Simulation.Windows

/-!
# The ring of inverters oscillates

In a pass over a ring the first inverter still reads what the last put out before, and all others
what was put out in the pass, so a ring of odd length has every output turned over by each pass
(`Ring.outputOf_passes`). Its snapshots alternate, and the guard reports them each time that its
window is full. `ring_oscillates` says so for a whole simulation.
-/

namespace LogicCircuit

/-- The circuit after the first ticks of a simulation. -/
def Circuit.afterTicks (c : Circuit) (n : Nat) (interval : Float) (t : Nat) : Circuit :=
  (Simulator.new.ticks ((tickTimes n interval).take t) c).2.2

theorem length_tickTimes (n : Nat) (interval : Float) : (tickTimes n interval).length = n := by
  rw [tickTimes, List.length_map, List.length_range]

/-- After all ticks there is what the simulation leaves behind. -/
theorem Circuit.afterTicks_self (c : Circuit) (n : Nat) (interval : Float) :
    c.afterTicks n interval n = (c.simulate n interval).2 := by
  rw [afterTicks, List.take_of_length_le (Nat.le_of_eq (length_tickTimes n interval))]
  rfl

namespace Samples.Ring

variable {c : Circuit} {len : Nat} {name : Nat → ComponentId}

/-- Nothing in a ring keeps time. -/
theorem unclocked (h : Ring len name c) : c.Unclocked := by
  intro id t ht
  obtain ⟨x, hx, htiming⟩ := Option.bind_eq_some_iff.1 ht
  rcases h.only hx with rfl | ⟨k, hk, rfl⟩
  · obtain ⟨y, history, on, hy, hkind⟩ := h.probe
    obtain rfl := Option.some.inj (hx.symm.trans hy)
    exact nomatch hkind ▸ htiming
  · obtain ⟨y, hy, hkind⟩ := h.chain.inverter hk
    obtain rfl := Option.some.inj (hx.symm.trans hy)
    exact nomatch hkind ▸ htiming

theorem passes (h : Ring len name c) (t : Nat) : Ring len name (c.passes t) :=
  h.of_frame (c.frame_passes t)

/-- A pass turns the outputs over, if the last inverter puts out what its number of passes says.
-/
theorem outputOf_pass (h : Ring len name c) {t : Nat}
    (hlast : c.outputOf (some (name (len - 1))) = decide (t % 2 = 1)) {k : Nat} (hk : k < len) :
    c.pass.outputOf (some (name k)) = decide ((t + 1 + k) % 2 = 1) := by
  have hflip : ∀ n : Nat, (!decide (n % 2 = 1)) = decide ((n + 1) % 2 = 1) := by
    intro n
    rw [← decide_not, decide_eq_decide]
    omega
  induction k with
  | zero => rw [h.outputOf_first hk, hlast, hflip, Nat.add_zero]
  | succ k ih => rw [h.outputOf_next hk, ih (Nat.lt_of_succ_lt hk), hflip, Nat.add_assoc _ k]

/-- The outputs in a ring of odd length after some passes. -/
theorem outputOf_passes (h : Ring len name c) (hodd : len % 2 = 1)
    (hoff : c.outputOf (some (name (len - 1))) = false) (t : Nat) {k : Nat} (hk : k < len) :
    (c.passes (t + 1)).outputOf (some (name k)) = decide ((t + 1 + k) % 2 = 1) := by
  have hlast : ∀ t, (c.passes t).outputOf (some (name (len - 1))) = decide (t % 2 = 1) := by
    intro t
    induction t with
    | zero => exact hoff
    | succ t ih =>
        rw [Circuit.passes_succ, (h.passes t).outputOf_pass ih (by omega), decide_eq_decide]
        omega
  rw [Circuit.passes_succ]
  exact (h.passes t).outputOf_pass (hlast t) hk

/-- The snapshots of a ring of odd length alternate. -/
theorem snapshot_passes_eq_iff (h : Ring len name c) (hodd : len % 2 = 1)
    (hoff : c.outputOf (some (name (len - 1))) = false) (t u : Nat) :
    (c.passes (t + 1)).snapshot = (c.passes (u + 1)).snapshot ↔ t % 2 = u % 2 := by
  have hids : ∀ t, (c.passes t).ids = c.ids := fun t => Circuit.ids_of_frame (c.frame_passes t)
  have hprobe : ∀ t, (c.passes (t + 1)).outputOf (some "output-probe") =
      (c.passes (t + 1)).outputOf (some (name (len - 1))) := by
    intro t
    obtain ⟨x, hx, -, hout⟩ := (h.passes t).exists_probe (by omega)
    rw [Circuit.passes_succ, ← hout, Circuit.outputOf, Option.bind_some, hx]
  rw [Circuit.snapshot_eq_iff ((hids _).trans (hids _).symm)]
  constructor
  · intro hsame
    have hfirst := hsame (name 0)
    rw [h.outputOf_passes hodd hoff t (by omega), h.outputOf_passes hodd hoff u (by omega),
      decide_eq_decide] at hfirst
    omega
  · intro hparity id
    have hinverter : ∀ k < len, (c.passes (t + 1)).outputOf (some (name k)) =
        (c.passes (u + 1)).outputOf (some (name k)) := by
      intro k hk
      rw [h.outputOf_passes hodd hoff t hk, h.outputOf_passes hodd hoff u hk, decide_eq_decide]
      omega
    by_cases hid : id ∈ c.ids
    · obtain ⟨x, hx⟩ := Circuit.mem_ids_iff.1 hid
      rcases h.only hx with rfl | ⟨k, hk, rfl⟩
      · rw [hprobe, hprobe, hinverter _ (by omega)]
      · exact hinverter k hk
    · rw [Circuit.outputOf_of_not_mem_ids (hids (t + 1) ▸ hid),
        Circuit.outputOf_of_not_mem_ids (hids (u + 1) ▸ hid)]

/-- The reports of a simulation of a ring of odd length: one of each ten carries an oscillation.
-/
theorem counts_simulate (h : Ring len name c) (hodd : len % 2 = 1)
    (hoff : c.outputOf (some (name (len - 1))) = false) (n : Nat) (interval : Float) :
    ((c.simulate n interval).1.map fun report => report.oscillation.map (·.count)) =
      (List.range n).map fun t => if 10 ∣ t + 1 then some 5 else none := by
  have hrun := (Simulator.attends_ofSettings .standard c).ticks h.unclocked (tickTimes n interval)
  rw [length_tickTimes] at hrun
  have halternate := Guard.watchAll_alternating (m := 5)
    (h.snapshot_passes_eq_iff hodd hoff) (by decide) n
  rw [← Circuit.snapshots_eq_map] at halternate
  have hreports : (c.simulate n interval).1.map (·.oscillation) =
      ((Guard.ofSize (2 * 5) 5).watchAll true (c.snapshots n)).1 := hrun.oscillations
  rw [← halternate, ← hreports, List.map_map]
  rfl

/-- During a simulation a ring goes through its passes. -/
theorem afterTicks_eq (h : Ring len name c) {n t : Nat} (ht : t ≤ n) (interval : Float) :
    c.afterTicks n interval t = c.passes t := by
  have hrun := (Simulator.attends_ofSettings .standard c).ticks h.unclocked
    ((tickTimes n interval).take t)
  have hlength : ((tickTimes n interval).take t).length = t := by
    rw [List.length_take, length_tickTimes, Nat.min_eq_left ht]
  rw [hlength] at hrun
  exact hrun.circuit

end Samples.Ring

open Samples in
/-- Every ring of inverters of odd length oscillates, and this is reported. It can be built from
three inverters on. In a simulation of any number of ticks an inverter is on after a tick exactly
if the numbers of the two, counted from 1 for ticks and from 0 for inverters, add up to an odd
number; the probe shows the last inverter; and the report of a tick carries an oscillation, of a
state that the window holds five times, exactly if the number of the tick is a multiple of ten. -/
theorem ring_oscillates {len : Nat} (hlen : 3 ≤ len) (hodd : len % 2 = 1) :
    ∃ c name, ringOscillator len = .ok c ∧ Ring len name c ∧
      ∀ (n : Nat) (interval : Float), (c.simulate n interval).1.length = n ∧
        ∀ t, 0 < t → t ≤ n →
          (∀ k < len, (c.afterTicks n interval t).outputOf (some (name k)) = true ↔
            (t + k) % 2 = 1) ∧
          (∃ x, (c.afterTicks n interval t).component? "output-probe" = some x ∧
            x.value = .bit ((c.afterTicks n interval t).outputOf (some (name (len - 1)))) ∧
            x.output = (c.afterTicks n interval t).outputOf (some (name (len - 1)))) ∧
          ∃ report, (c.simulate n interval).1[t - 1]? = some report ∧
            report.oscillation.map (·.count) = if 10 ∣ t then some 5 else none := by
  obtain ⟨c, name, hbuilt, hc, hoff⟩ := exists_ringOscillator hlen hodd
  refine ⟨c, name, hbuilt, hc, fun n interval => ?_⟩
  have hcounts := hc.counts_simulate hodd hoff n interval
  have hlength : (c.simulate n interval).1.length = n := by
    simpa using congrArg List.length hcounts
  refine ⟨hlength, fun t hpos ht => ?_⟩
  obtain ⟨t, rfl⟩ := Nat.exists_eq_add_one.2 hpos
  rw [hc.afterTicks_eq ht]
  refine ⟨fun k hk => ?_, ?_, ?_⟩
  · rw [hc.outputOf_passes hodd hoff t hk, decide_eq_true_iff]
  · rw [Circuit.passes_succ]
    exact (hc.passes t).exists_probe (by omega)
  · have ht' : t < (c.simulate n interval).1.length := by omega
    have hcount := congrArg (·[t]?) hcounts
    simp only [List.getElem?_map, List.getElem?_eq_getElem ht', List.getElem?_range ht,
      Option.map_some] at hcount
    exact ⟨_, List.getElem?_eq_getElem ht', Option.some.inj hcount⟩

/-- In twenty ticks of the shortest ring the tenth and the last report an oscillation; after the
last the second inverter is on and the two others are off. -/
theorem ring_oscillates_three : ∃ c name, Samples.ringOscillator 3 = .ok c ∧
    Samples.Ring 3 name c ∧
    (∃ report, (c.simulate 20 50).1[9]? = some report ∧
      report.oscillation.map (·.count) = some 5) ∧
    (∃ report, (c.simulate 20 50).1[10]? = some report ∧ report.oscillation = none) ∧
    (c.simulate 20 50).2.outputOf (some (name 0)) = false ∧
    (c.simulate 20 50).2.outputOf (some (name 1)) = true ∧
    (c.simulate 20 50).2.outputOf (some (name 2)) = false := by
  obtain ⟨c, name, hbuilt, hc, hruns⟩ := ring_oscillates (Nat.le_refl 3) (by decide)
  obtain ⟨-, hticks⟩ := hruns 20 50
  obtain ⟨-, -, hten⟩ := hticks 10 (by decide) (by decide)
  obtain ⟨-, -, report, heleven, hnone⟩ := hticks 11 (by decide) (by decide)
  obtain ⟨hinverters, -⟩ := hticks 20 (by decide) (by decide)
  rw [c.afterTicks_self] at hinverters
  have hoff : ∀ k < 3, k % 2 = 0 → (c.simulate 20 50).2.outputOf (some (name k)) = false := by
    intro k hk heven
    rw [← Bool.not_eq_true, hinverters k hk]
    omega
  refine ⟨c, name, hbuilt, hc, hten, ⟨report, heleven, ?_⟩, hoff 0 (by decide) (by decide),
    (hinverters 1 (by decide)).2 (by decide), hoff 2 (by decide) (by decide)⟩
  exact Option.map_eq_none_iff.1 hnone

end LogicCircuit
