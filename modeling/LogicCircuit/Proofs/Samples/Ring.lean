import LogicCircuit.Proofs.Samples.Building
import LogicCircuit.Proofs.Simulation.Snapshots
import Mathlib.Order.Interval.Set.Nat

/-!
# The ring of inverters

The sample is a chain of inverters (`Chain`) that a forced wire closes, and a probe on the last of
them; `exists_ringOscillator` says that it is built, and `Ring` what it is then. The walk that
orders it starts at the probe and follows the chain back from its end until it meets the end
again, so the inverters have their turns from the first to the last
(`Ring.closed_evaluationOrder`).
-/

namespace LogicCircuit

/-! ## Walks around a ring -/

namespace Traversal

variable {α : Type} [DecidableEq α] {g : Graph α} {name : Nat → α} {len : Nat} {path : List α}

/-- Nodes that are closed are passed over. -/
theorem foldl_visit_of_closed {t : Traversal α} {starts : List α}
    (h : ∀ a ∈ starts, a ∈ t.closed) :
    starts.foldl (visit g path) t = t := by
  induction starts with
  | nil => rfl
  | cons a starts ih =>
      have ha : visit g path t a = t := by rw [visit, if_pos (h a List.mem_cons_self)]
      rw [List.foldl_cons, ha, ih fun b hb => h b (List.mem_cons_of_mem a hb)]

/-- A walk back along a ring, from a node of it below an open last node or from the last node
itself, closes the nodes up to there, from the first one on, and meets the last node again. -/
theorem visit_ring (hg : g.Supported) (hfirst : g.next (name 0) = [name (len - 1)])
    (hnext : ∀ k, k + 1 < len → g.next (name (k + 1)) = [name k])
    (hdistinct : Set.InjOn name (Set.Iio len)) {k : Nat} (hk : k < len)
    (hlast : name (len - 1) ∈ name k :: path) (hpath : ∀ j ≤ k, name j ∉ path) :
    visit g path {} (name k) = ⟨(List.range (k + 1)).map name, [name (len - 1)]⟩ := by
  induction k generalizing path with
  | zero =>
      have hmeet : visit g (name 0 :: path) {} (name (len - 1)) = ⟨[], [name (len - 1)]⟩ := by
        rw [visit, if_neg List.not_mem_nil, dif_pos hlast]
        rfl
      rw [visit_of_new hg List.not_mem_nil (hpath 0 (Nat.le_refl 0)), hfirst]
      simp only [List.foldl_cons, List.foldl_nil, hmeet]
      rfl
  | succ k ih =>
      have hpath' : ∀ j ≤ k, name j ∉ name (k + 1) :: path := by
        intro j hj hmem
        rcases List.mem_cons.1 hmem with heq | hmem
        · have hjk := hdistinct (Set.mem_Iio.2 (by omega)) (Set.mem_Iio.2 hk) heq
          omega
        · exact hpath j (by omega) hmem
      have hbelow := ih (by omega) (List.mem_cons_of_mem _ hlast) hpath'
      rw [visit_of_new hg List.not_mem_nil (hpath _ (Nat.le_refl _)), hnext k hk]
      simp only [List.foldl_cons, List.foldl_nil, hbelow]
      rw [List.range_succ (n := k + 1), List.map_append]
      rfl

end Traversal

namespace Samples

/-! ## Chains -/

/-- A chain of inverters, each driven by the one before it, and the first by what is given. -/
structure Chain (count : Nat) (name : Nat → ComponentId) (up : Option ComponentId) (c : Circuit) :
    Prop where
  inverter : ∀ {k}, k < count → ∃ x, c.component? (name k) = some x ∧ x.kind = .gate .not
  first : c.driversOf (name 0) = [up]
  next : ∀ {k}, k + 1 < count → c.driversOf (name (k + 1)) = [some (name k)]
  distinct : Set.InjOn name (Set.Iio count)

/-- A circuit that is a chain of inverters and nothing else. -/
structure Chained (count : Nat) (name : Nat → ComponentId) (c : Circuit) : Prop where
  laid : Laid ∅ c
  chain : Chain count name none c
  only : ∀ {id x}, c.component? id = some x → ∃ k < count, id = name k

variable {c d : Circuit} {count len : Nat} {name : Nat → ComponentId} {up : Option ComponentId}

theorem Chain.extends (h : Chain count name up c) (hcount : 0 < count) (hcd : c.Extends d) :
    Chain count name up d := by
  refine ⟨fun hk => ?_, ?_, fun hk => ?_, h.distinct⟩
  · obtain ⟨x, hx, hkind⟩ := h.inverter hk
    exact ⟨x, hcd.component hx, hkind⟩
  · obtain ⟨x, hx, _⟩ := h.inverter hcount
    exact (hcd.drivers hx).trans h.first
  · obtain ⟨x, hx, _⟩ := h.inverter hk
    exact (hcd.drivers hx).trans (h.next hk)

/-- The first inverter is a chain. -/
theorem exists_first : ∃ first c, put (.gate .not ⟨200, 100⟩) .empty = .ok (first, c) ∧
    Chained 1 (fun _ => first) c := by
  set x := Component.gate .not ⟨200, 100⟩
  obtain ⟨n, c, hput, hrun, hsame, -, hplaced, hready⟩ :=
    exists_put_unnamed .empty (Component.wellFormed_gate .not _ : x.WellFormed) rfl
  refine ⟨_, c, hput, ?_, ⟨fun _ => ⟨_, hplaced, rfl⟩, hready.drivers, fun hk => ?_, ?_⟩, ?_⟩
  · exact Laid.empty.grow hrun hsame hplaced (Set.Subset.refl _) (.inr ⟨n, rfl⟩)
      fun s hs => (nomatch hs)
  · omega
  · intro j hj k hk _
    have hj : j < 1 := hj
    have hk : k < 1 := hk
    omega
  · intro id y hy
    by_cases hid : id = Circuit.componentName x.kind.category n
    · exact ⟨0, Nat.one_pos, hid⟩
    · rw [hsame.component hid] at hy
      cases hy

/-- One more inverter makes the chain longer. -/
theorem Chained.exists_gate (h : Chained (count + 1) name c) (column : Nat) :
    ∃ id d, gate .not [name count] column 0 c = .ok (id, d) ∧
      Chained (count + 2) (Function.update name (count + 1) id) d ∧
      d.outputOf (some id) = false := by
  obtain ⟨x, hx, hkind⟩ := h.chain.inverter (Nat.lt_succ_self count)
  have hinputs : ∀ a ∈ [name count], ∃ y, c.component? a = some y ∧ ¬ y.kind.isSink := by
    intro a ha
    obtain rfl := List.mem_singleton.1 ha
    exact ⟨x, hx, by simp [hkind, Kind.isSink]⟩
  obtain ⟨id, y, d, hgate, hlaid, hsame, hnew, hy, hgkind, hoff, hdrivers⟩ :=
    h.laid.exists_gate .not rfl hinputs column 0
  have hcd : c.Extends d := hsame.extends hnew
  have hlong : Chain (count + 1) name none d := h.chain.extends (Nat.succ_pos count) hcd
  have hold : ∀ {k}, k < count + 1 → Function.update name (count + 1) id k = name k := fun hk =>
    Function.update_of_ne (Nat.ne_of_lt hk) id name
  have hself : Function.update name (count + 1) id (count + 1) = id := Function.update_self ..
  have hne : ∀ {k}, k < count + 1 → name k ≠ id := by
    rintro k hk rfl
    obtain ⟨z, hz, _⟩ := h.chain.inverter hk
    rw [hnew] at hz
    cases hz
  refine ⟨id, d, hgate, ⟨hlaid, ⟨fun {k} hk => ?_, ?_, fun {k} hk => ?_, ?_⟩, ?_⟩, ?_⟩
  · rcases Nat.lt_succ_iff_lt_or_eq.1 hk with hk | rfl
    · exact hold hk ▸ hlong.inverter hk
    · exact ⟨y, hself.symm ▸ hy, hgkind⟩
  · rw [hold (Nat.succ_pos count)]
    exact hlong.first
  · rcases Nat.lt_succ_iff_lt_or_eq.1 hk with hk | hk
    · rw [hold hk, hold (by omega)]
      exact hlong.next hk
    · obtain rfl : k = count := by omega
      rw [hself, hold (Nat.lt_succ_self k)]
      exact hdrivers
  · intro j hj k hk heq
    rcases Nat.lt_succ_iff_lt_or_eq.1 (Set.mem_Iio.1 hj) with hj | rfl <;>
      rcases Nat.lt_succ_iff_lt_or_eq.1 (Set.mem_Iio.1 hk) with hk | rfl
    · rw [hold hj, hold hk] at heq
      exact h.chain.distinct hj hk heq
    · rw [hold hj, hself] at heq
      exact absurd heq (hne hj)
    · rw [hself, hold hk] at heq
      exact absurd heq.symm (hne hk)
    · rfl
  · intro a z hz
    by_cases ha : a = id
    · exact ⟨count + 1, Nat.lt_succ_self _, ha.trans hself.symm⟩
    · obtain ⟨k, hk, rfl⟩ := h.only ((hsame.component ha).symm.trans hz)
      exact ⟨k, Nat.lt_succ_of_lt hk, (hold hk).symm⟩
  · rw [Circuit.outputOf, Option.bind_some, hy]
    exact hoff

/-- Inverters are put one after the other; the last of them is off. -/
theorem Chained.exists_inverters (h : Chained (count + 1) name c) (todo column : Nat) :
    ∃ name' d, inverters (todo + 1) column (name count) c = .ok (name' (count + todo + 1), d) ∧
      Chained (count + todo + 2) name' d ∧ (∀ k ≤ count, name' k = name k) ∧
      d.outputOf (some (name' (count + todo + 1))) = false := by
  induction todo generalizing count name column c with
  | zero =>
      obtain ⟨id, d, hgate, hd, hoff⟩ := h.exists_gate column
      have hself : Function.update name (count + 1) id (count + 1) = id := Function.update_self ..
      refine ⟨_, d, ?_, hd, fun k hk => Function.update_of_ne (by omega) id name,
        hself.symm ▸ hoff⟩
      rw [inverters, bind_eq_of_ok hgate, Nat.add_zero, hself]
      rfl
  | succ todo ih =>
      obtain ⟨id, c', hgate, hc', -⟩ := h.exists_gate column
      have hself : Function.update name (count + 1) id (count + 1) = id := Function.update_self ..
      obtain ⟨name', d, hrest, hd, hold, hoff⟩ := ih hc' (column + 1)
      have hcount : count + 1 + todo = count + (todo + 1) := Nat.add_right_comm count 1 todo
      rw [hself, hcount] at hrest
      rw [hcount] at hd hoff
      refine ⟨name', d, ?_, hd, fun k hk => ?_, hoff⟩
      · rw [inverters, bind_eq_of_ok hgate]
        exact hrest
      · exact (hold k (by omega)).trans (Function.update_of_ne (by omega) id name)

/-! ## The ring -/

/-- A ring of inverters with a probe on the last of them. -/
structure Ring (len : Nat) (name : Nat → ComponentId) (c : Circuit) : Prop where
  wired : c.WellWired
  /-- The first inverter is driven by the last. -/
  chain : Chain len name (some (name (len - 1))) c
  probe : ∃ x history on,
    c.component? "output-probe" = some x ∧ x.kind = .sink ⟨.probe history, [on]⟩
  /-- The probe is driven by the last inverter. -/
  observed : c.driversOf "output-probe" = [some (name (len - 1))]
  only : ∀ {id x}, c.component? id = some x → id = "output-probe" ∨ ∃ k < len, id = name k

/-- A wire may be forced onto an empty slot of another component. -/
theorem force_eq_attach {source target : ComponentId} {slot : Nat} {x y : Component}
    (hx : c.component? source = some x) (hout : ¬ x.kind.isSink)
    (hy : c.component? target = some y)
    (hslot : y.slots[slot]? = some none) (hne : source ≠ target) :
    c.force source target slot = .ok (c.attach source target slot) := by
  have hlt : slot < y.slots.length := (List.getElem?_eq_some_iff.1 hslot).1
  have hnone : c.objection? true source target slot = none := by
    simp [Circuit.objection?, hx, hy, hne, hout, Component.arity, hlt]
  have hfree : c.free target slot = c := by
    simp [Circuit.free, hy, hslot]
  rw [Circuit.force, Circuit.wireUp, hnone, hfree]

/-- The last inverter of a chain may be forced onto the first. -/
theorem Chained.exists_force (h : Chained (count + 2) name c) :
    ∃ k d, c.force (name (count + 1)) (name 0) 0 = .ok (k, d) ∧ d.WellWired ∧
      Chain (count + 2) name (some (name (count + 1))) d ∧
      ∀ {id x}, d.component? id = some x → ∃ k < count + 2, id = name k := by
  obtain ⟨x, hx, hxkind⟩ := h.chain.inverter (Nat.lt_succ_self (count + 1))
  obtain ⟨y, hy, hykind⟩ := h.chain.inverter (Nat.succ_pos (count + 1))
  have hwired := h.laid.wired
  have hne : ∀ {k}, k + 1 < count + 2 → name (k + 1) ≠ name 0 := fun hk heq =>
    absurd (h.chain.distinct (Set.mem_Iio.2 hk) (Set.mem_Iio.2 (Nat.succ_pos _)) heq) (by omega)
  have hslot : y.slots[0]? = some none :=
    hwired.slot_of_driversOf hy (by rw [h.chain.first]; rfl)
  have hforce : c.force (name (count + 1)) (name 0) 0 =
      .ok (c.attach (name (count + 1)) (name 0) 0) :=
    force_eq_attach hx (by simp [hxkind, Kind.isSink]) hy hslot (hne (by omega))
  have hsame := hwired.sameBut_attach (name (count + 1)) (name 0) 0
  refine ⟨(c.attach (name (count + 1)) (name 0) 0).1, (c.attach (name (count + 1)) (name 0) 0).2,
    hforce, hwired.wireUp hforce, ⟨fun {k} hk => ?_, ?_, fun {k} hk => ?_, h.chain.distinct⟩,
    fun {id z} hz => ?_⟩
  · cases k with
    | zero => exact ⟨_, Circuit.component?_attach_target hy, hykind⟩
    | succ k =>
        obtain ⟨z, hz, hzkind⟩ := h.chain.inverter hk
        exact ⟨z, (hsame.component (hne hk)).trans hz, hzkind⟩
  · rw [hwired.driversOf_attach hy, h.chain.first]
    rfl
  · exact (hsame.drivers (hne hk)).trans (h.chain.next hk)
  · by_cases hid : id = name 0
    · exact ⟨0, Nat.succ_pos _, hid⟩
    · exact h.only ((hsame.component hid).symm.trans hz)

/-- With a probe on its last inverter a closed chain is a ring. -/
theorem Chain.exists_ring (h : Chain (count + 2) name (some (name (count + 1))) c)
    (hc : c.WellWired) (honly : ∀ {id x}, c.component? id = some x → ∃ k < count + 2, id = name k)
    (hprobe : ∀ k < count + 2, name k ≠ "output-probe") (position : Point) :
    ∃ c' d, put (((Component.sink (.probe []) position).withId "output-probe").withLabel "Probe")
        c = .ok ("output-probe", c') ∧
      drive (name (count + 1)) "output-probe" 0 c' = .ok ((), d) ∧ Ring (count + 2) name d ∧
      c.Extends d := by
  set x := ((Component.sink (.probe []) position).withId "output-probe").withLabel "Probe"
  have hformed : x.WellFormed := ((Component.wellFormed_sink _ _).withId _).withLabel _
  have hid : x.id ≠ "" := by
    show "output-probe" ≠ ""
    decide
  have hnew : c.component? "output-probe" = none := by
    refine Option.eq_none_iff_forall_ne_some.2 fun y hy => ?_
    obtain ⟨k, hk, hname⟩ := honly hy
    exact hprobe k hk hname.symm
  obtain ⟨y, hy, hykind⟩ := h.inverter (Nat.lt_succ_self (count + 1))
  obtain ⟨c', d, hput, hdrive, hrun, hsame, ⟨z, hz, hzkind⟩, hobserved⟩ :=
    exists_put_driven hc hformed hid hnew rfl ⟨y, hy, by simp [hykind, Kind.isSink]⟩
  have hcd : c.Extends d := hsame.extends hnew
  refine ⟨c', d, hput, hdrive, ⟨hrun.wellWired hc, h.extends (Nat.succ_pos _) hcd,
    ⟨z, [], false, hz, hzkind⟩, hobserved, fun {id w} hw => ?_⟩, hcd⟩
  by_cases hid : id = "output-probe"
  · exact .inl hid
  · exact .inr (honly ((hsame.component hid).symm.trans hw))

/-- The sample is a ring whose last inverter is off. -/
theorem exists_ringOscillator (hlen : 3 ≤ len) (hodd : len % 2 = 1) :
    ∃ c name, ringOscillator len = .ok c ∧ Ring len name c ∧
      c.outputOf (some (name (len - 1))) = false := by
  obtain ⟨todo, rfl⟩ : ∃ todo, len = todo + 2 := ⟨len - 2, by omega⟩
  obtain ⟨first, c₁, hput, h₁⟩ := exists_first
  obtain ⟨name, c₂, hinverters, h₂, hfirst, hoff⟩ := h₁.exists_inverters todo 1
  rw [Nat.zero_add] at hinverters h₂ hoff
  obtain ⟨k, c₃, hforce, hc₃, hchain, honly⟩ := h₂.exists_force
  have hgates : ∀ k < todo + 2, name k ≠ "output-probe" := by
    intro k hk heq
    obtain ⟨x, hx, _⟩ := h₂.chain.inverter hk
    rcases h₂.laid.names hx with hgiven | ⟨n, hn⟩
    · exact hgiven
    · exact ne_gate (by decide) n (heq.symm.trans hn)
  obtain ⟨c₄, d, hprobe, hdrive, hd, hcd⟩ :=
    hchain.exists_ring hc₃ honly hgates ⟨200 + 150 * Float.ofNat (todo + 2), 200⟩
  refine ⟨d, name, ?_, hd, ?_⟩
  · have hclose : (fun c : Circuit => settle (c.force (name (todo + 1)) first 0)) c₂ =
        .ok ((), c₃) := by
      rw [← hfirst 0 (Nat.le_refl 0)]
      exact congrArg settle hforce
    have hsteps : (put (.gate .not ⟨200, 100⟩) >>= fun first =>
        inverters (todo + 1) 1 first >>= fun last =>
        (fun c => settle (c.force last first 0)) >>= fun _ =>
        put (((Component.sink (.probe []) ⟨200 + 150 * Float.ofNat (todo + 2), 200⟩).withId
          "output-probe").withLabel "Probe") >>= fun probe =>
        drive last probe 0) .empty = .ok ((), d) := by
      rw [bind_eq_of_ok hput, bind_eq_of_ok hinverters, bind_eq_of_ok hclose,
        bind_eq_of_ok hprobe]
      exact hdrive
    rw [ringOscillator, if_neg (by omega)]
    exact congrArg (·.map (·.2)) hsteps
  · obtain ⟨x, hx, -⟩ := hchain.inverter (Nat.lt_succ_self (todo + 1))
    have hkept := outputOf_wireUp h₂.laid.wired hforce (name (todo + 1))
    rw [hoff, Circuit.outputOf, Option.bind_some, hx] at hkept
    show d.outputOf (some (name (todo + 1))) = false
    rw [Circuit.outputOf, Option.bind_some, hcd.component hx]
    exact hkept

namespace Ring

/-- A ring in another state is a ring. -/
theorem of_frame (h : Ring len name c) (hframe : d.frame = c.frame) : Ring len name d := by
  have hdrivers := Circuit.driversOf_of_frame hframe
  have hblank : ∀ {id x}, c.component? id = some x →
      ∃ y, d.component? id = some y ∧ y.kind.blank = x.kind.blank := by
    intro id x hx
    obtain ⟨y, hy, hxy⟩ := Circuit.component?_of_frame hframe.symm hx
    exact ⟨y, hy, (Component.Frame.mk.inj hxy).2.2.symm⟩
  refine ⟨h.wired.of_frame hframe, ⟨fun {k} hk => ?_, ?_, fun {k} hk => ?_, h.chain.distinct⟩,
    ?_, ?_, fun {id y} hy => ?_⟩
  · obtain ⟨x, hx, hkind⟩ := h.chain.inverter hk
    obtain ⟨y, hy, hsame⟩ := hblank hx
    exact ⟨y, hy, Kind.blank_eq_gate (hsame.trans (by rw [hkind]; rfl))⟩
  · rw [hdrivers, h.chain.first]
  · rw [hdrivers, h.chain.next hk]
  · obtain ⟨x, history, on, hx, hkind⟩ := h.probe
    obtain ⟨y, hy, hsame⟩ := hblank hx
    obtain ⟨history', on', hkind'⟩ := Kind.eq_probe_of_blank (hsame.trans (by rw [hkind]))
    exact ⟨y, history', on', hy, hkind'⟩
  · rw [hdrivers, h.observed]
  · obtain ⟨x, hx, _⟩ := Circuit.component?_of_frame hframe hy
    exact h.only hx

/-- The probe is not one of the inverters. -/
theorem name_ne_probe (h : Ring len name c) {k : Nat} (hk : k < len) :
    name k ≠ "output-probe" := by
  intro heq
  obtain ⟨x, hx, hkind⟩ := h.chain.inverter hk
  obtain ⟨y, _, _, hy, hprobe⟩ := h.probe
  rw [heq, hy] at hx
  obtain rfl := Option.some.inj hx
  exact nomatch hkind.symm.trans hprobe

/-- The order of evaluation: the inverters from the first to the last, and then the probe. -/
theorem closed_evaluationOrder (h : Ring len name c) (hlen : 0 < len) :
    c.evaluationOrder.closed = (List.range len).map name ++ ["output-probe"] := by
  have hnext : ∀ {id a}, c.driversOf id = [some a] → c.driverGraph.next id = [a] := by
    intro id a hd
    rw [Circuit.next_driverGraph, hd]
    rfl
  have hring : Traversal.visit c.driverGraph ["output-probe"] {} (name (len - 1)) =
      ⟨(List.range len).map name, [name (len - 1)]⟩ := by
    obtain ⟨k, rfl⟩ : ∃ k, len = k + 1 := ⟨len - 1, by omega⟩
    refine Traversal.visit_ring c.supported_driverGraph (hnext h.chain.first)
      (fun j hj => hnext (h.chain.next hj)) h.chain.distinct (Nat.lt_succ_self k)
      List.mem_cons_self fun j hj hmem => ?_
    exact h.name_ne_probe (Nat.lt_succ_of_le hj) (List.mem_singleton.1 hmem)
  have hprobe : Traversal.visit c.driverGraph [] {} "output-probe" =
      ⟨(List.range len).map name ++ ["output-probe"], [name (len - 1)]⟩ := by
    rw [Traversal.visit_of_new c.supported_driverGraph List.not_mem_nil List.not_mem_nil,
      hnext h.observed]
    simp only [List.foldl_cons, List.foldl_nil, hring]
  have hsinks : ∀ id ∈ c.sinks.map (·.id), id = "output-probe" := by
    intro id hid
    obtain ⟨x, hx, rfl⟩ := List.mem_map.1 hid
    obtain ⟨hlook, hsink⟩ := Circuit.mem_sinks_iff.1 hx
    refine (h.only hlook).resolve_right ?_
    rintro ⟨k, hk, hname⟩
    obtain ⟨y, hy, hkind⟩ := h.chain.inverter hk
    rw [← hname, hlook] at hy
    obtain rfl := Option.some.inj hy
    simp [hkind, Kind.isSink] at hsink
  -- the walk starts at the probe, and there is nothing left for the other starts
  obtain ⟨rest, hstarts⟩ : ∃ rest, c.sinks.map (·.id) = "output-probe" :: rest := by
    obtain ⟨x, _, _, hx, hkind⟩ := h.probe
    have hmem : x ∈ c.sinks := Circuit.mem_sinks_iff.2
      ⟨(Roster.name_of_get? hx).symm ▸ hx, by simp [hkind, Kind.isSink]⟩
    obtain ⟨id, rest, hcons⟩ :=
      List.exists_cons_of_ne_nil (List.ne_nil_of_mem (List.mem_map_of_mem (f := (·.id)) hmem))
    exact ⟨rest, hsinks id (hcons ▸ List.mem_cons_self) ▸ hcons⟩
  have hrest : ∀ id ∈ rest ++ c.ids, id ∈ (List.range len).map name ++ ["output-probe"] := by
    intro id hid
    have hknown : id = "output-probe" ∨ ∃ k < len, id = name k := by
      rcases List.mem_append.1 hid with hid | hid
      · exact .inl (hsinks id (hstarts ▸ List.mem_cons_of_mem _ hid))
      · obtain ⟨x, hx⟩ := Circuit.mem_ids_iff.1 hid
        exact h.only hx
    rcases hknown with rfl | ⟨k, hk, rfl⟩
    · exact List.mem_append_right _ (List.mem_singleton_self _)
    · exact List.mem_append_left _ (List.mem_map_of_mem (List.mem_range.2 hk))
  rw [Circuit.evaluationOrder, Traversal.ofStarts, hstarts, List.cons_append, List.foldl_cons,
    hprobe, Traversal.foldl_visit_of_closed hrest]

/-! ### Passes -/

/-- Among the names of the first inverters of a ring are those of the first inverters. -/
theorem mem_map_range_iff (h : Ring len name c) {j k : Nat} (hj : j < len) (hk : k ≤ len) :
    name j ∈ (List.range k).map name ↔ j < k := by
  rw [List.mem_map]
  constructor
  · rintro ⟨i, hi, heq⟩
    have hi := List.mem_range.1 hi
    exact h.chain.distinct (Set.mem_Iio.2 (Nat.lt_of_lt_of_le hi hk)) (Set.mem_Iio.2 hj) heq ▸ hi
  · exact fun hjk => ⟨j, List.mem_range.2 hjk, rfl⟩

/-- An inverter has its turn after those before it. -/
theorem precedes_inverter_iff (h : Ring len name c) {j k : Nat} (hj : j < len) (hk : k < len) :
    Precedes c.evaluationOrder.closed (name j) (name k) ↔ j < k := by
  have hself : name k ∉ (List.range k).map name := fun hmem =>
    Nat.lt_irrefl k ((h.mem_map_range_iff hk (Nat.le_of_lt hk)).1 hmem)
  obtain ⟨after, hafter⟩ : ∃ after,
      c.evaluationOrder.closed = (List.range k).map name ++ name k :: after := by
    obtain ⟨m, rfl⟩ : ∃ m, len = k + (m + 1) := ⟨len - (k + 1), by omega⟩
    rw [h.closed_evaluationOrder (Nat.zero_lt_of_lt hk), List.range_add, List.range_succ_eq_map,
      List.map_append, List.append_assoc]
    exact ⟨_, rfl⟩
  rw [hafter, Circuit.precedes_append_cons hself, h.mem_map_range_iff hj (Nat.le_of_lt hk)]

/-- The probe has its turn after the inverters. -/
theorem precedes_probe (h : Ring len name c) {k : Nat} (hk : k < len) :
    Precedes c.evaluationOrder.closed (name k) "output-probe" := by
  have hprobe : "output-probe" ∉ (List.range len).map name := by
    intro hmem
    obtain ⟨j, hj, heq⟩ := List.mem_map.1 hmem
    exact h.name_ne_probe (List.mem_range.1 hj) heq
  rw [h.closed_evaluationOrder (Nat.zero_lt_of_lt hk), precedes_append_singleton hprobe]
  exact List.mem_map_of_mem (List.mem_range.2 hk)

/-- A pass evaluates a component that is driven on one slot on the new output of its driver, if
that has its turn before, and otherwise on the old one. -/
theorem component?_pass (h : Ring len name c) {id a : ComponentId} {x : Component}
    (hx : c.component? id = some x) (hdriven : c.driversOf id = [some a]) :
    c.pass.component? id = some (x.evaluate
      [if Precedes c.evaluationOrder.closed a id then c.pass.outputOf (some a)
        else c.outputOf (some a)]) := by
  have hperm := h.wired.perm_closed_evaluationOrder
  have hid : id ∈ c.evaluationOrder.closed := hperm.mem_iff.2 (Circuit.mem_ids_of_component? hx)
  have hpass := Circuit.component?_evaluateAll (hperm.nodup_iff.2 c.nodup_ids) hid hx
  rw [hdriven] at hpass
  exact hpass

/-- The first inverter still reads what the last put out before the pass. -/
theorem outputOf_first (h : Ring len name c) (hlen : 0 < len) :
    c.pass.outputOf (some (name 0)) = !c.outputOf (some (name (len - 1))) := by
  obtain ⟨x, hx, hkind⟩ := h.chain.inverter hlen
  have hlate : ¬ Precedes c.evaluationOrder.closed (name (len - 1)) (name 0) := fun hearly =>
    Nat.not_lt_zero _ ((h.precedes_inverter_iff (by omega) hlen).1 hearly)
  rw [Circuit.outputOf, Option.bind_some, h.component?_pass hx h.chain.first, if_neg hlate]
  simp [Component.evaluate, hkind, Gate.eval, Gate.apply]

/-- The other inverters read what the one before puts out in the pass. -/
theorem outputOf_next (h : Ring len name c) {k : Nat} (hk : k + 1 < len) :
    c.pass.outputOf (some (name (k + 1))) = !c.pass.outputOf (some (name k)) := by
  obtain ⟨x, hx, hkind⟩ := h.chain.inverter hk
  have hearly := (h.precedes_inverter_iff (Nat.lt_of_succ_lt hk) hk).2 (Nat.lt_succ_self k)
  rw [Circuit.outputOf, Option.bind_some, h.component?_pass hx (h.chain.next hk), if_pos hearly]
  simp [Component.evaluate, hkind, Gate.eval, Gate.apply]

/-- The probe shows what the last inverter puts out in the pass. -/
theorem exists_probe (h : Ring len name c) (hlen : 0 < len) : ∃ x,
    c.pass.component? "output-probe" = some x ∧
      x.value = .bit (c.pass.outputOf (some (name (len - 1)))) ∧
      x.output = c.pass.outputOf (some (name (len - 1))) := by
  obtain ⟨x, history, on, hx, hkind⟩ := h.probe
  have hpass := h.component?_pass hx h.observed
  rw [if_pos (h.precedes_probe (by omega))] at hpass
  refine ⟨_, hpass, ?_, ?_⟩
  · rw [Component.value, Component.evaluate, hkind]
    rfl
  · rw [Component.evaluate, hkind]
    rfl

end Ring

end Samples

end LogicCircuit
