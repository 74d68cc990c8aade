import LogicCircuit.Proofs.Simulation.Ticks

/-!
# What the guard reports

A report of the oscillation guard says that a full window holds the state often enough and another
one besides (`Guard.reports_of_record`). Whether the state also came back, with another one in
between, is a question of its own: it did unless all its places in the window make up one stretch
(`comesBack_iff`). Two runs are worked out in full: a state that stays until another one takes its
place, where everything depends on whether a full window holds both (`Guard.silent_change`), and
states that alternate (`Guard.watchAll_alternating`).
-/

namespace LogicCircuit

namespace Guard

/-- What is done with a guard. -/
inductive Use where
  /-- It records a state. -/
  | record (state : String)
  /-- It forgets its states. -/
  | clear

/-- The guard after a use. -/
def use (g : Guard) : Use → Guard
  | .record state => (g.record state).2
  | .clear => g.clear

/-- The guard after some uses. -/
def useAll (uses : List Use) (g : Guard) : Guard := uses.foldl use g

/-- The window that is judged when a state is recorded. -/
def seen (g : Guard) (state : String) : List String := latest g.size (g.window ++ [state])

end Guard

/-- A state came back: it is in the window, later another one is, and later it is again. -/
def ComesBack (p : String) (window : List String) : Prop :=
  ∃ q, q ≠ p ∧ [p, q, p].Sublist window

/-- All places of a state in the window make up one stretch. -/
def OneStretch (p : String) (window : List String) : Prop :=
  ∃ before n after, window = before ++ List.replicate n p ++ after ∧ p ∉ before ∧ p ∉ after

section Stretches

variable {p : String} {window : List String}

/-- A state that is in one stretch did not come back. -/
theorem OneStretch.not_comesBack (h : OneStretch p window) : ¬ ComesBack p window := by
  obtain ⟨before, n, after, rfl, hbefore, hafter⟩ := h
  rintro ⟨q, hq, hsub⟩
  rw [List.append_assoc] at hsub
  obtain ⟨first, rest, hsplit, hfirst, hrest⟩ := List.sublist_append_iff.1 hsub
  -- the first part would start with the state, the last one end with it
  cases first with
  | cons s first =>
      obtain rfl : p = s := (List.cons.inj hsplit).1
      exact hbefore (hfirst.mem List.mem_cons_self)
  | nil =>
      obtain rfl : [p, q, p] = rest := hsplit
      obtain ⟨stretch, last, hsplit, hstretch, hlast⟩ := List.sublist_append_iff.1 hrest
      have hnil : last = [] := by
        by_contra hne
        have hend : last.getLast hne = p := by
          have hlast := congrArg List.getLast? hsplit
          rw [List.getLast?_append_of_ne_nil _ hne, List.getLast?_eq_some_getLast hne] at hlast
          exact (Option.some.inj hlast).symm
        exact hafter (hlast.mem (hend ▸ List.getLast_mem hne))
      rw [hnil, List.append_nil] at hsplit
      have hmem : q ∈ List.replicate n p := hstretch.mem (hsplit ▸ by simp)
      exact hq (List.eq_of_mem_replicate hmem)

/-- A state came back exactly if its places in the window are not one stretch. -/
theorem comesBack_iff : ComesBack p window ↔ ¬ OneStretch p window := by
  refine ⟨fun h hstretch => hstretch.not_comesBack h, fun h => ?_⟩
  induction window with
  | nil => exact absurd ⟨[], 0, [], rfl, by simp, by simp⟩ h
  | cons s window ih =>
      by_cases hrest : OneStretch p window
      · obtain ⟨before, n, after, rfl, hbefore, hafter⟩ := hrest
        by_cases hs : s = p
        · subst hs
          cases before with
          | nil => exact absurd ⟨[], n + 1, after, rfl, hbefore, hafter⟩ h
          | cons q before =>
              cases n with
              | zero =>
                  refine absurd ⟨[], 1, q :: before ++ after, by simp, by simp, ?_⟩ h
                  obtain ⟨hq, hbefore⟩ := not_or.1 (mt List.mem_cons.2 hbefore)
                  simp [hq, hbefore, hafter]
              | succ n =>
                  have hq : q ≠ s := fun heq => hbefore (heq ▸ List.mem_cons_self)
                  have hlast : [s].Sublist (before ++ List.replicate (n + 1) s ++ after) :=
                    List.singleton_sublist.2 (by simp [List.replicate_succ])
                  exact ⟨q, hq, (hlast.cons_cons q).cons_cons s⟩
        · exact absurd ⟨s :: before, n, after, rfl, by simp [hbefore, Ne.symm hs], hafter⟩ h
      · obtain ⟨q, hq, hsub⟩ := ih hrest
        exact ⟨q, hq, hsub.cons s⟩

end Stretches

namespace Guard

variable {g : Guard} {state : String} {o : Oscillation}

/-- A record judges the window, and starts it afresh after a report. -/
theorem record_eq (g : Guard) (state : String) : g.record state =
    match g.judge? (g.seen state) with
    | some o => (some o, g.clear)
    | none => (none, { g with window := g.seen state }) := rfl

theorem size_record (g : Guard) (state : String) : (g.record state).2.size = g.size := by
  rw [record_eq]
  split <;> rfl

theorem threshold_record (g : Guard) (state : String) :
    (g.record state).2.threshold = g.threshold := by
  rw [record_eq]
  split <;> rfl

/-- A guard keeps its size and its threshold. -/
theorem size_useAll (uses : List Use) (g : Guard) : (g.useAll uses).size = g.size := by
  induction uses generalizing g with
  | nil => rfl
  | cons u uses ih =>
      refine (ih (g.use u)).trans ?_
      cases u with
      | record state => exact g.size_record state
      | clear => rfl

theorem threshold_useAll (uses : List Use) (g : Guard) :
    (g.useAll uses).threshold = g.threshold := by
  induction uses generalizing g with
  | nil => rfl
  | cons u uses ih =>
      refine (ih (g.use u)).trans ?_
      cases u with
      | record state => exact g.threshold_record state
      | clear => rfl

theorem length_seen (g : Guard) (state : String) :
    (g.seen state).length = min g.size (g.window.length + 1) := by
  rw [seen, latest, List.length_drop, List.length_append, List.length_singleton]
  omega

/-- Two different states are in a window exactly if it is not all of one state. -/
theorem isMixed_iff {window : List String} {p : String} (hp : p ∈ window) :
    isMixed window ↔ ∃ q ∈ window, q ≠ p := by
  cases window with
  | nil => cases hp
  | cons s window =>
      simp only [isMixed, List.any_eq_true, bne_iff_ne]
      constructor
      · rintro ⟨q, hq, hqs⟩
        by_cases hsp : s = p
        · exact ⟨q, List.mem_cons_of_mem s hq, hsp ▸ hqs⟩
        · exact ⟨s, List.mem_cons_self, hsp⟩
      · rintro ⟨q, hq, hqp⟩
        rcases List.mem_cons.1 hq with rfl | hq
        · exact ⟨p, (List.mem_cons.1 hp).resolve_left hqp.symm, hqp.symm⟩
        · by_cases hqs : q = s
          · have hps : p ≠ s := fun h => hqp (hqs.trans h.symm)
            exact ⟨p, (List.mem_cons.1 hp).resolve_left hps, hps⟩
          · exact ⟨q, hq, hqs⟩

/-- A window is not reported exactly if it is not full, or holds one state, or none often enough.
-/
theorem judge?_eq_none_iff {window : List String} : g.judge? window = none ↔
    (g.size ≤ window.length → isMixed window → ∀ s ∈ window, window.count s < g.threshold) := by
  rw [judge?]
  split
  · rename_i hboth
    obtain ⟨hfull, hmixed⟩ := Bool.and_eq_true_iff.1 hboth
    have hfull := of_decide_eq_true hfull
    simp [repeated?, hfull, hmixed]
  · rename_i hboth
    simp only [true_iff]
    intro hfull hmixed
    exact absurd (by simp [hfull, hmixed]) hboth

/-- What a report of a state says of the window. -/
structure Reports (g : Guard) (window : List String) (o : Oscillation) : Prop where
  /-- The window is full. -/
  full : window.length = g.size
  /-- The report gives the number of times. -/
  count : o.count = window.count o.pattern
  /-- The state is there often enough. -/
  often : g.threshold ≤ o.count
  /-- The state is there at all. -/
  mem : o.pattern ∈ window
  /-- Another state is there as well. -/
  mixed : ∃ q ∈ window, q ≠ o.pattern

/-- A record reports a state of a full window that is there often enough, next to another one. -/
theorem reports_of_record (h : (g.record state).1 = some o) : g.Reports (g.seen state) o := by
  rw [record_eq] at h
  split at h
  · rename_i o' hjudge
    obtain rfl := Option.some.inj h
    unfold judge? at hjudge
    split at hjudge
    · rename_i hfull
      obtain ⟨hfull, hmixed⟩ := Bool.and_eq_true_iff.1 hfull
      obtain ⟨s, hs, rfl⟩ := Option.map_eq_some_iff.1 hjudge
      have hmem := List.mem_of_find?_eq_some hs
      have hlength := g.length_seen state
      have hoften := List.find?_some hs
      refine ⟨?_, rfl, of_decide_eq_true hoften, hmem, (isMixed_iff hmem).1 hmixed⟩
      exact Nat.le_antisymm (by omega) (of_decide_eq_true hfull)
    · cases hjudge
  · cases h

/-- The window starts afresh after a report. -/
theorem record_snd (h : (g.record state).1 = some o) : (g.record state).2 = g.clear := by
  rw [record_eq] at h ⊢
  split at h
  · rfl
  · cases h

/-- A window that is not full is not judged. -/
theorem record_of_not_full (h : (g.seen state).length < g.size) :
    g.record state = (none, { g with window := g.seen state }) := by
  have hnone : g.judge? (g.seen state) = none :=
    judge?_eq_none_iff.2 fun hfull => absurd hfull (Nat.not_le.2 h)
  rw [record_eq, hnone]

/-- A full window with two states, one of them often enough, is reported. -/
theorem isSome_record (hfull : (g.seen state).length = g.size) {p q : String}
    (hp : p ∈ g.seen state) (hoften : g.threshold ≤ (g.seen state).count p)
    (hq : q ∈ g.seen state) (hqp : q ≠ p) : (g.record state).1.isSome := by
  have hmixed := (isMixed_iff hp).2 ⟨q, hq, hqp⟩
  have hjudged : g.judge? (g.seen state) ≠ none := fun hnone =>
    Nat.not_lt.2 hoften (judge?_eq_none_iff.1 hnone (Nat.le_of_eq hfull.symm) hmixed p hp)
  obtain ⟨o, ho⟩ := Option.ne_none_iff_exists'.1 hjudged
  rw [record_eq, ho]
  rfl

/-! ## Guards that keep silent -/

/-- A guard reports nothing on some states. -/
def Silent (g : Guard) (states : List String) : Prop :=
  ∀ report ∈ (g.watchAll true states).1, report = none

/-- A guard keeps silent as long as it reports none of its windows. -/
theorem silent_cons (g : Guard) (state : String) (states : List String) :
    g.Silent (state :: states) ↔
      g.judge? (g.seen state) = none ∧ { g with window := g.seen state }.Silent states := by
  have hcons : g.Silent (state :: states) ↔
      (g.record state).1 = none ∧ (g.record state).2.Silent states := List.forall_mem_cons
  rw [hcons, record_eq]
  cases g.judge? (g.seen state) <;> simp

/-- The latest states are found among the latest states before and the last one. -/
theorem latest_latest_append (size : Nat) (states : List String) (state : String) :
    latest size (latest size states ++ [state]) = latest size (states ++ [state]) := by
  have hdrop : states.length - size ≤ states.length := Nat.sub_le _ _
  rw [latest, latest, latest, ← List.drop_append_of_le_length hdrop, List.drop_drop]
  congr 1
  simp only [List.length_append, List.length_drop, List.length_singleton]
  omega

section Past

variable {past : List String}

/-- A guard that holds the end of its past judges the end of the past and the present state. -/
theorem seen_of_past (hpast : g.window = latest g.size past) (state : String) :
    g.seen state = latest g.size (past ++ [state]) := by
  rw [seen, hpast, latest_latest_append]

/-- A guard that holds the end of its past keeps silent exactly if it reports none of the windows
that follow. -/
theorem silent_iff (hpast : g.window = latest g.size past) (states : List String) :
    g.Silent states ↔
      ∀ k < states.length, g.judge? (latest g.size (past ++ states.take (k + 1))) = none := by
  induction states generalizing g past with
  | nil => simp [Silent, watchAll]
  | cons state states ih =>
      have hseen := seen_of_past hpast state
      have hrest := ih (g := { g with window := g.seen state }) hseen
      rw [silent_cons, hrest, List.length_cons, Nat.forall_lt_succ_left, hseen]
      simp only [List.append_assoc, List.singleton_append, List.take_succ_cons, List.take_zero]
      rfl

/-- A guard that keeps silent goes on to hold the end of its past. -/
theorem Silent.watchAll_snd {states : List String} (h : g.Silent states)
    (hpast : g.window = latest g.size past) :
    (g.watchAll true states).2 = { g with window := latest g.size (past ++ states) } := by
  induction states generalizing g past with
  | nil => rw [List.append_nil, ← hpast]; rfl
  | cons state states ih =>
      obtain ⟨hnone, hrest⟩ := (g.silent_cons state states).1 h
      have hnext : (g.watch true state).2 = { g with window := g.seen state } := by
        rw [watch, if_pos rfl, record_eq, hnone]
      rw [watchAll, hnext, ih hrest (seen_of_past hpast state), List.append_assoc,
        List.singleton_append]

end Past

/-- A window of a single state is not reported. -/
theorem judge?_replicate (g : Guard) (n : Nat) (s : String) :
    g.judge? (List.replicate n s) = none := by
  refine judge?_eq_none_iff.2 fun _ hmixed => absurd hmixed ?_
  cases n <;> simp [isMixed, List.replicate_succ]

theorem latest_replicate (size n : Nat) (s : String) :
    latest size (List.replicate n s) = List.replicate (min n size) s := by
  rw [latest, List.drop_replicate, List.length_replicate]
  congr 1
  omega

/-- A guard keeps silent on a state that stays. -/
theorem silent_replicate (size threshold n : Nat) (s : String) :
    (ofSize size threshold).Silent (List.replicate n s) := by
  have hfresh : (ofSize size threshold).window = latest size [] := by simp [ofSize, latest]
  refine (silent_iff hfresh _).2 fun k _ => ?_
  rw [List.nil_append, List.take_replicate, latest_replicate, judge?_replicate]

section Change

variable {a b : String} {m k : Nat}

/-- The end of two stretches is the end of the second one, or all of it after the end of the first
one. -/
theorem latest_stretches (size m k : Nat) (a b : String) :
    latest size (List.replicate m a ++ List.replicate k b) =
      List.replicate (min m (size - k)) a ++ List.replicate (min k size) b := by
  rw [latest, List.drop_append, List.drop_replicate, List.drop_replicate]
  simp only [List.length_append, List.length_replicate]
  congr 2 <;> omega

/-- A full window of two stretches is not reported exactly if both are below the threshold. -/
theorem judge?_stretches (hab : a ≠ b) (hm : 0 < m) (hk : 0 < k) (hfull : g.size ≤ m + k) :
    g.judge? (List.replicate m a ++ List.replicate k b) = none ↔
      m < g.threshold ∧ k < g.threshold := by
  have ha : a ∈ List.replicate m a ++ List.replicate k b :=
    List.mem_append_left _ (List.mem_replicate.2 ⟨Nat.ne_of_gt hm, rfl⟩)
  have hb : b ∈ List.replicate m a ++ List.replicate k b :=
    List.mem_append_right _ (List.mem_replicate.2 ⟨Nat.ne_of_gt hk, rfl⟩)
  have hcounta : (List.replicate m a ++ List.replicate k b).count a = m := by
    simp [List.count_replicate, hab.symm]
  have hcountb : (List.replicate m a ++ List.replicate k b).count b = k := by
    simp [List.count_replicate, hab]
  have hlength : g.size ≤ (List.replicate m a ++ List.replicate k b).length := by
    simpa using hfull
  have hmixed := (isMixed_iff ha).2 ⟨b, hb, hab.symm⟩
  rw [judge?_eq_none_iff]
  constructor
  · intro hrare
    exact ⟨hcounta ▸ hrare hlength hmixed a ha, hcountb ▸ hrare hlength hmixed b hb⟩
  · rintro ⟨hrarea, hrareb⟩ _ _ s hs
    rcases List.mem_append.1 hs with hs | hs
    · rwa [List.eq_of_mem_replicate hs, hcounta]
    · rwa [List.eq_of_mem_replicate hs, hcountb]

/-- After a change the window is not reported exactly if it is not full, or holds one state, or is
below the threshold with both. -/
theorem judge?_change (hab : a ≠ b) (hm : 0 < m) (hk : 0 < k) :
    g.judge? (latest g.size (List.replicate m a ++ List.replicate k b)) = none ↔
      (k < g.size → g.size ≤ m + k → k < g.threshold ∧ g.size - k < g.threshold) := by
  rw [latest_stretches]
  by_cases hlt : k < g.size
  · rw [Nat.min_eq_left (Nat.le_of_lt hlt)]
    by_cases hfull : g.size ≤ m + k
    · have hold : min m (g.size - k) = g.size - k := by omega
      rw [hold, judge?_stretches hab (by omega) hk (by omega)]
      exact ⟨fun ⟨hrarea, hrareb⟩ _ _ => ⟨hrareb, hrarea⟩, fun hrare => (hrare hlt hfull).symm⟩
    · have hshort : ¬ g.size ≤
          (List.replicate (min m (g.size - k)) a ++ List.replicate k b).length := by
        rw [List.length_append, List.length_replicate, List.length_replicate]
        omega
      rw [judge?_eq_none_iff]
      exact ⟨fun _ _ h => absurd h hfull, fun _ h => absurd h hshort⟩
  · have hgone : min m (g.size - k) = 0 := by omega
    rw [hgone, List.replicate_zero, List.nil_append, judge?_replicate]
    exact ⟨fun _ h => absurd h hlt, fun _ => rfl⟩

/-- A state stays for a while and then another one does. The guard keeps silent on the first one;
and it keeps silent on the second one exactly if no full window holds both, one of them often
enough. -/
theorem silent_change (hab : a ≠ b) (hm : 0 < m) (size threshold n : Nat) :
    (ofSize size threshold).Silent (List.replicate m a) ∧
      (((ofSize size threshold).watchAll true (List.replicate m a)).2.Silent
          (List.replicate n b) ↔
        ∀ k, 0 < k → k ≤ n → k < size → size ≤ m + k → k < threshold ∧ size - k < threshold) := by
  have hfresh : (ofSize size threshold).window = latest size [] := by simp [ofSize, latest]
  have hsame := silent_replicate size threshold m a
  refine ⟨hsame, ?_⟩
  rw [hsame.watchAll_snd hfresh, List.nil_append,
    silent_iff rfl, List.length_replicate]
  have hwindow : ∀ k < n, judge? (ofSize size threshold)
      (latest size (List.replicate m a ++ (List.replicate n b).take (k + 1))) = none ↔
      (k + 1 < size → size ≤ m + (k + 1) → k + 1 < threshold ∧ size - (k + 1) < threshold) := by
    intro k hk
    rw [List.take_replicate, Nat.min_eq_left hk]
    exact judge?_change (g := ofSize size threshold) hab hm (Nat.succ_pos k)
  constructor
  · intro hsilent k hpos hle
    obtain ⟨k, rfl⟩ := Nat.exists_eq_succ_of_ne_zero (Nat.ne_of_gt hpos)
    exact (hwindow k hle).1 (hsilent k hle)
  · intro hrare k hk
    exact (hwindow k hk).2 (hrare (k + 1) (Nat.succ_pos k) hk)

end Change

/-! ## States that alternate -/

section Alternating

variable {f : Nat → String} {m t : Nat}

/-- Of states that alternate each makes up one half. -/
theorem count_alternating (hf : ∀ t u, f t = f u ↔ t % 2 = u % 2) (m t : Nat) :
    ((List.range (2 * m)).map f).count (f t) = m := by
  have hboth : ∀ k, (if f (2 * k) = f t then 1 else 0) + (if f (2 * k + 1) = f t then 1 else 0) =
      1 := by
    intro k
    simp only [hf]
    rcases Nat.mod_two_eq_zero_or_one t with ht | ht <;> rw [ht] <;> simp
  induction m with
  | zero => rfl
  | succ m ih =>
      rw [Nat.mul_succ, List.range_succ, List.range_succ]
      simp only [List.map_append, List.count_append, List.map_cons, List.map_nil,
        List.count_singleton, ih, beq_iff_eq]
      have hone := hboth m
      omega

/-- The guard of an even size and half of it as threshold, after some states that alternate. -/
def alternating (f : Nat → String) (m t : Nat) : Guard :=
  ⟨2 * m, m, (List.range (t % (2 * m))).map f⟩

/-- The window that is judged holds the states since the last report. -/
theorem seen_alternating (hf : ∀ t u, f t = f u ↔ t % 2 = u % 2) (hm : 0 < m) (t : Nat) :
    (alternating f m t).seen (f t) = (List.range (t % (2 * m) + 1)).map f := by
  have hnow : f t = f (t % (2 * m)) := by rw [hf, Nat.mod_mul_right_mod]
  have hlist : (alternating f m t).window ++ [f t] = (List.range (t % (2 * m) + 1)).map f := by
    rw [List.range_succ, List.map_append, hnow]
    rfl
  have hall : ((List.range (t % (2 * m) + 1)).map f).length - (alternating f m t).size = 0 := by
    rw [List.length_map, List.length_range]
    exact Nat.sub_eq_zero_of_le (Nat.mod_lt t (by omega))
  rw [seen, hlist, latest, hall, List.drop_zero]

/-- Of states that alternate one is reported each time that the window is full. -/
theorem record_alternating (hf : ∀ t u, f t = f u ↔ t % 2 = u % 2) (hm : 0 < m) (t : Nat) :
    ((alternating f m t).record (f t)).1.map (·.count) =
        (if 2 * m ∣ t + 1 then some m else none) ∧
      ((alternating f m t).record (f t)).2 = alternating f m (t + 1) := by
  have hlt : t % (2 * m) < 2 * m := Nat.mod_lt t (by omega)
  have hnext : (t + 1) % (2 * m) = (t % (2 * m) + 1) % (2 * m) :=
    (Nat.mod_add_mod t (2 * m) 1).symm
  have hseen := seen_alternating hf hm t
  set g := alternating f m t
  by_cases hfull : t % (2 * m) + 1 = 2 * m
  · have hmod : (t + 1) % (2 * m) = 0 := by rw [hnext, hfull, Nat.mod_self]
    rw [hfull] at hseen
    have hcount : ∀ k, (g.seen (f t)).count (f k) = m := fun k => by
      rw [hseen, count_alternating hf]
    have hmem : ∀ k, f k ∈ g.seen (f t) := fun k =>
      List.count_pos_iff.1 (by rw [hcount]; exact hm)
    have hne : f 1 ≠ f 0 := fun h => absurd ((hf 1 0).1 h) (by decide)
    have hlength : (g.seen (f t)).length = g.size := by
      rw [hseen, List.length_map, List.length_range]
      rfl
    have hoften : g.threshold ≤ (g.seen (f t)).count (f 0) := Nat.le_of_eq (hcount 0).symm
    obtain ⟨o, ho⟩ :=
      Option.isSome_iff_exists.1 (isSome_record hlength (hmem 0) hoften (hmem 1) hne)
    have hreport := reports_of_record ho
    obtain ⟨k, -, hk⟩ := List.mem_map.1 (hseen ▸ hreport.mem)
    have hhalf : o.count = m := by rw [hreport.count, ← hk, hcount]
    rw [ho, record_snd ho, if_pos (Nat.dvd_of_mod_eq_zero hmod), alternating, hmod]
    exact ⟨congrArg some hhalf, rfl⟩
  · have hmod : (t + 1) % (2 * m) = t % (2 * m) + 1 := by
      rw [hnext, Nat.mod_eq_of_lt (by omega)]
    have hdvd : ¬ 2 * m ∣ t + 1 := fun hdvd => by
      rw [Nat.mod_eq_zero_of_dvd hdvd] at hmod
      omega
    have hshort : (g.seen (f t)).length < g.size := by
      rw [hseen, List.length_map, List.length_range]
      exact Nat.lt_of_le_of_ne hlt hfull
    rw [record_of_not_full hshort, if_neg hdvd, hseen, alternating, hmod]
    exact ⟨rfl, rfl⟩

/-- States that alternate are reported at every multiple of the size, each time with half of it as
the count. -/
theorem watchAll_alternating (hf : ∀ t u, f t = f u ↔ t % 2 = u % 2) (hm : 0 < m) (n : Nat) :
    (((ofSize (2 * m) m).watchAll true ((List.range n).map f)).1.map fun o => o.map (·.count)) =
      (List.range n).map fun t => if 2 * m ∣ t + 1 then some m else none := by
  have hstart : ofSize (2 * m) m = alternating f m 0 := by
    rw [alternating, Nat.zero_mod]
    rfl
  have hrun : ∀ n, (((alternating f m 0).watchAll true ((List.range n).map f)).1.map fun o =>
      o.map (·.count)) = ((List.range n).map fun t => if 2 * m ∣ t + 1 then some m else none) ∧
      ((alternating f m 0).watchAll true ((List.range n).map f)).2 = alternating f m n := by
    intro n
    induction n with
    | zero => exact ⟨rfl, rfl⟩
    | succ n ih =>
        obtain ⟨hreports, hguard⟩ := ih
        obtain ⟨hreport, hnext⟩ := record_alternating hf hm n
        rw [List.range_succ, List.map_append, List.map_append, watchAll_append, List.map_append,
          hreports, hguard]
        exact ⟨congrArg (_ ++ [·]) hreport, hnext⟩
  rw [hstart]
  exact (hrun n).1

end Alternating

end Guard

end LogicCircuit
