import LogicCircuit.Proofs.Circuit.Origins

/-!
# Invariants of components

There are many edits, and few ways in which they change a component: wires come to its slots and
go, it gets a name, a label or a place, its source is set, it is evaluated and it is reset. What
new components have and each of these ways keeps is an invariant (`Component.Invariant`). Every
edit keeps it of all components (`Circuit.Every.apply`), and so every circuit that can be made has
it (`Circuit.Built.every`).
-/

namespace LogicCircuit

/-- A property that new components have and that every way to change a component keeps. -/
structure Component.Invariant (P : Component → Prop) : Prop where
  new : ∀ {x : Component}, x.IsNew → P x
  /-- Names, labels, places and wires do not matter. -/
  congr : ∀ {x y : Component}, P x → y.kind = x.kind → y.output = x.output →
    y.changed = x.changed → P y
  source : ∀ {x : Component} (change : Source → Source), P x →
    P { x with kind := x.kind.mapSource change }
  evaluate : ∀ {x : Component} (bits : List Bool), P x → P (x.evaluate bits)
  reset : ∀ {x : Component} (now : Float), P x → P (x.reset now)

namespace Circuit

/-- All components of the circuit have a property. -/
def Every (P : Component → Prop) (c : Circuit) : Prop := ∀ x ∈ c.components.entries, P x

variable {P : Component → Prop} {c d : Circuit} {x : Component} {id : ComponentId}

namespace Every

theorem empty : Circuit.empty.Every P := fun _ h => nomatch h

/-- What is found in the circuit has the property. -/
theorem component (h : c.Every P) (hx : c.component? id = some x) : P x :=
  h x (Roster.get?_eq_some_iff.1 hx).1

/-- A change of all components that keeps the property keeps it of the circuit. -/
theorem map (h : c.Every P) {change : Component → Component} {keeps : ∀ x, (change x).id = x.id}
    (hchange : ∀ x, P x → P (change x)) :
    ({ c with components := c.components.map change keeps } : Circuit).Every P := by
  intro y hy
  obtain ⟨x, hx, rfl⟩ := List.mem_map.1 hy
  exact hchange x (h x hx)

theorem modify (h : c.Every P) (id : ComponentId) {change : Component → Component}
    {keeps : ∀ x, (change x).id = x.id} (hchange : ∀ x, P x → P (change x)) :
    (c.modify id change keeps).Every P :=
  h.map fun x hx => by
    split
    · exact hchange x hx
    · exact hx

/-! ## Topology -/

section Topology

variable (hP : Component.Invariant P)
include hP

theorem disconnect (h : c.Every P) (k : WireId) : (c.disconnect k).Every P := by
  unfold Circuit.disconnect disconnect?
  cases c.wire? k with
  | none => exact h
  | some w =>
      refine h.modify w.target fun x hx => ?_
      split
      · exact hP.congr hx rfl rfl rfl
      · exact hx

theorem disconnectAll (h : c.Every P) (ks : List WireId) :
    (ks.foldl Circuit.disconnect c).Every P := by
  induction ks generalizing c with
  | nil => exact h
  | cons k ks ih => exact ih (h.disconnect hP k)

theorem remove (h : c.Every P) (id : ComponentId) : (c.remove id).Every P := by
  unfold Circuit.remove remove?
  split
  · have hbare := h.disconnectAll hP (c.incident id)
    exact fun x hx => hbare x (List.mem_filter.1 hx).1
  · exact h

theorem place (h : c.Every P) (hx : P x) : (c.place x).Every P := by
  intro y hy
  rcases Roster.mem_place hy with rfl | hy
  · exact hP.congr hx rfl rfl rfl
  · exact h y hy

theorem add (h : c.Every P) (hx : P x) : (c.add x).2.Every P := by
  unfold Circuit.add
  split
  · set n := c.freshComponentNumber x.kind.category
    have hbase : ({ c with lastNumber := n } : Circuit).Every P := h
    exact hbase.place hP (hP.congr hx rfl rfl rfl)
  · exact (h.remove hP x.id).place hP hx

/-- A copy under another name has the property of what it is a copy of. -/
theorem addCopy (h : c.Every P) (hx : P x) (new : ComponentId) :
    (c.add (x.withId new)).2.Every P :=
  h.add hP (hP.congr hx rfl rfl rfl)

theorem wireUp (h : c.Every P) {loopsAllowed : Bool} {source target : ComponentId} {slot : Nat}
    {k : WireId} (hd : c.wireUp loopsAllowed source target slot = .ok (k, d)) : d.Every P := by
  obtain ⟨-, rfl⟩ := wireUp_eq_ok hd
  have hfree : (c.free target slot).Every P := by
    rcases free_cases c target slot with ⟨_, j, _, _, hfree⟩ | ⟨_, hfree⟩ <;> rw [hfree]
    · exact h.disconnect hP j
    · exact h
  exact hfree.modify target fun x hx => hP.congr hx rfl rfl rfl

/-- A refused wire changes nothing. -/
theorem settled (h : c.Every P) (loopsAllowed : Bool) (source target : ComponentId) (slot : Nat) :
    (Edit.settled c (c.wireUp loopsAllowed source target slot)).Every P := by
  cases hd : c.wireUp loopsAllowed source target slot with
  | error _ => exact h
  | ok d => exact h.wireUp hP hd

end Topology

/-! ## State -/

/-- A setting that does not apply changes nothing. -/
theorem getD {d? : Option Circuit} (h : c.Every P) (hd : ∀ d, d? = some d → d.Every P) :
    (d?.getD c).Every P := by
  cases hopt : d? with
  | none => exact h
  | some d => exact hd d hopt

section State

variable (hP : Component.Invariant P)
include hP

theorem modifySource (h : c.Every P) {fits : Source → Bool} {change : Source → Source}
    (hd : c.modifySource? id fits change = some d) : d.Every P := by
  unfold modifySource? at hd
  split at hd
  · split at hd
    · obtain rfl := Option.some.inj hd
      exact h.modify id fun x hx => hP.source change hx
    · cases hd
  · cases hd

theorem toggleClocks (h : c.Every P) (now : Float) : (c.toggleClocks now).Every P :=
  h.map fun _ hx => hP.source _ hx

theorem reset (h : c.Every P) (now : Float) : (c.reset now).Every P :=
  h.map fun _ hx => hP.reset now hx

theorem evaluateAll (h : c.Every P) (ids : List ComponentId) : (c.evaluateAll ids).2.Every P := by
  rw [evaluateAll_snd]
  induction ids generalizing c with
  | nil => exact h
  | cons id ids ih => exact ih (h.modify id fun x hx => hP.evaluate _ hx)

theorem tick (h : c.Every P) (s : Simulator) (now : Float) : (s.tick c now).2.2.Every P := by
  have hpass := (h.toggleClocks hP now).evaluateAll hP
    ({ s with lastTime := now }.refresh (c.toggleClocks now)).order.closed
  unfold Simulator.tick
  dsimp only
  split <;> exact hpass

theorem setLevels (h : c.Every P) (levels : List (ComponentId × Bool)) :
    (c.setLevels levels).Every P := by
  unfold Circuit.setLevels
  induction levels generalizing c with
  | nil => exact h
  | cons l levels ih => exact ih (h.getD fun d hd => h.modifySource hP hd)

theorem tableRows (h : c.Every P) (inputs outputs : List ComponentId) (rows : List Nat)
    (s : Simulator) : (tableRows inputs outputs rows s c).2.Every P := by
  induction rows generalizing s c with
  | nil => exact h
  | cons row rows ih =>
      unfold Circuit.tableRows
      exact ih ((h.setLevels hP _).evaluateAll hP _) _

theorem tabulate (h : c.Every P) : c.tabulate.2.Every P := by
  unfold Circuit.tabulate
  dsimp only
  split
  · exact h
  · exact h.tableRows hP _ _ _ _

end State

/-- Edits keep an invariant of all components, as long as what they add is new. -/
theorem apply (h : c.Every P) (hP : Component.Invariant P) {e : Edit} (he : e.AddsNew) :
    (e.apply c).Every P := by
  cases e with
  | add x _ => exact h.add hP (hP.new he)
  | copy id new =>
      refine h.getD fun d hd => ?_
      obtain ⟨x, hx, rfl⟩ := Option.map_eq_some_iff.1 hd
      exact h.addCopy hP (h.component hx) new
  | remove id => exact h.remove hP id
  | connectPorts source sourcePort target targetPort =>
      show (Edit.settled c (c.connectPorts source sourcePort target targetPort)).Every P
      unfold connectPorts
      split
      · exact h.settled hP false source target targetPort.index
      · exact h
  | connect source target slot => exact h.settled hP false source target slot
  | force source target slot => exact h.settled hP true source target slot
  | disconnect wire => exact h.disconnect hP wire
  | clear => exact fun _ hx => nomatch hx
  | setLevel | setSwitch | press | toggle | setFrequency =>
      exact h.getD fun d hd => h.modifySource hP hd
  | setLabel | move =>
      refine h.getD fun d hd => ?_
      obtain ⟨_, _, rfl⟩ := Option.map_eq_some_iff.1 hd
      exact h.modify _ fun x hx => hP.congr hx rfl rfl rfl
  | evaluate s => exact h.evaluateAll hP _
  | tick s now => exact h.tick hP s now
  | step s => exact h.tick hP s _
  | reset s => exact h.reset hP _
  | tabulate => exact h.tabulate hP

end Every

/-! ## Circuits that can be made -/

/-- The circuits that can be made: new components and copies of components of any such circuit are
added, the circuit is edited, and sources are set in any way that leaves them what they are. -/
inductive Built : Circuit → Prop where
  | empty : Built .empty
  | edit {c : Circuit} {e : Edit} : Built c → e.AddsNew → Built (e.apply c)
  | addCopy {c d : Circuit} {id : ComponentId} {x : Component} (new : ComponentId) :
      Built c → Built d → d.component? id = some x → Built (c.add (x.withId new)).2
  | source {c d : Circuit} {id : ComponentId} {change : Source → Source} : Built c →
      (∀ s, (change s).blank = s.blank) → c.modifySource? id (fun _ => true) change = some d →
        Built d

/-- What is assembled from a circuit that can be made can be made. -/
theorem Built.run (h : c.Built) (hrun : Run Edit.AddsNew c d) : d.Built := by
  induction hrun with
  | refl => exact h
  | edit e _ he ih => exact ih.edit he

/-- A loaded circuit could have been made by hand. -/
theorem Built.loaded (h : Loaded c) : c.Built :=
  Built.empty.run (h.assembled.mono fun _ he => he.2)

theorem Built.wellWired (h : c.Built) : c.WellWired := by
  induction h with
  | empty => exact .empty
  | edit _ _ ih => exact (Edit.change ih _).wellWired ih
  | addCopy new _ _ hx ih ihd => exact ih.add ((ihd.formed hx).withId new)
  | source _ hblank hd ih => exact ih.of_frame (frame_modifySource hblank hd)

/-- A circuit that can be made has every invariant. -/
theorem Built.every (hP : Component.Invariant P) (h : c.Built) : c.Every P := by
  induction h with
  | empty => exact .empty
  | edit _ he ih => exact ih.apply hP he
  | addCopy new _ _ hx ih ihd => exact ih.addCopy hP (ihd.component hx) new
  | source _ _ hd ih => exact ih.modifySource hP hd

end Circuit

end LogicCircuit
