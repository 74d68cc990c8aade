import LogicCircuit.Proofs.Simulation.Flags
import Mathlib.Logic.Function.Basic

/-!
# Simulators that share a circuit

A `Bench` is a circuit with any number of simulators, which are used on it in any order. What a
pass of one of them leaves is what the next one finds. Two benches cannot be told apart if no
simulator can tell its circuit from that of the other bench (`Bench.Together`); one use of one
simulator keeps this for all of them (`Together.perform`), and so does every run
(`Together.performAll`). New simulators at circuits that are alike start so (`Together.of_alike`).
-/

namespace LogicCircuit

/-- What each component holds and shows: its name, what it is with its state, its value and its
output. -/
def Circuit.display (c : Circuit) : List (ComponentId × Kind × Value × Bool) :=
  c.components.entries.map fun x => (x.id, x.kind, x.value, x.output)

namespace Session

variable {t u : Session}

/-- An event that leaves the topology alone keeps the frame of the circuit. -/
theorem frame_perform (t : Session) {event : Event} (hevent : event.KeepsTopology) :
    (t.perform event).circuit.frame = t.circuit.frame := by
  obtain ⟨s, c⟩ := t
  cases event with
  | edit e =>
      obtain ⟨set, hset⟩ := Option.isSome_iff_exists.1 hevent
      show (e.apply c).frame = c.frame
      rw [e.apply_of_setting hset]
      cases hc : set c with
      | none => rfl
      | some d => exact e.frame_of_setting hset hc
  | evaluate => exact Circuit.frame_evaluate s c
  | tick now => exact Circuit.frame_tick s c now
  | step => exact Circuit.frame_tick s c _
  | reset => exact c.frame_reset s.lastTime
  | order | trace _ => rfl

namespace Together

/-- A new simulator cannot tell circuits that are alike apart. -/
theorem of_alike {c d : Circuit} (h : c.Alike d) (settings : Settings) :
    Together ⟨.ofSettings settings, c⟩ ⟨.ofSettings settings, d⟩ where
  outline := by
    have hread : ∀ c : Circuit, c.unflagged.outline =
        ⟨(c.components.entries.map (·.standing)).map (·.bare), c.driversOf⟩ := fun c => by
      rw [Circuit.outline, Circuit.driversOf_of_frame c.frame_unflagged]
      simp only [Circuit.unflagged, Roster.map, List.map_map]
      rfl
    show d.unflagged.outline = c.unflagged.outline
    rw [hread, hread, h.standing_entries, h.driversOf_eq]
  settings := rfl
  guard := rfl
  lastTime := rfl
  revision := ⟨(nomatch ·), (nomatch ·)⟩
  order := (nomatch ·)

/-- What a listing reads of the components, wires, places and flags apart, is the same. -/
theorem map_entries {α : Type} (h : Together t u) (f : Component → α)
    (hbare : ∀ x, f x.bare = f x) (hflag : ∀ x, f x.unflagged = f x) :
    u.circuit.components.entries.map f = t.circuit.components.entries.map f := by
  have hread : ∀ c : Circuit, c.unflagged.components.entries.map f = c.components.entries.map f :=
    fun c => by simp only [Circuit.unflagged, Roster.map, List.map_map, Function.comp_def, hflag]
  have hflagless : u.circuit.unflagged.components.entries.map f =
      t.circuit.unflagged.components.entries.map f := Circuit.map_of_outline h.outline f hbare
  rwa [hread, hread] at hflagless

/-- Components show the same. -/
theorem display_eq (h : Together t u) : u.circuit.display = t.circuit.display :=
  h.map_entries _ (fun _ => rfl) fun _ => rfl

end Together

end Session

/-! ## Benches -/

/-- Simulators that share a circuit. -/
structure Bench where
  /-- The simulators, by number. -/
  simulators : Nat → Simulator
  /-- The circuit that they are used on. -/
  circuit : Circuit

/-- An event at one of the simulators of a bench. -/
structure Use where
  /-- The number of the simulator. -/
  simulator : Nat
  /-- What it is used for, or what happens to the circuit. -/
  event : Event

namespace Bench

/-- New simulators with some settings. -/
def new (settings : Nat → Settings) (c : Circuit) : Bench :=
  ⟨fun i => .ofSettings (settings i), c⟩

/-- A simulator with the circuit. -/
def seat (b : Bench) (i : Nat) : Session := ⟨b.simulators i, b.circuit⟩

/-- What is reported for a use. -/
def answer (b : Bench) (use : Use) : Answer := (b.seat use.simulator).answer use.event

/-- The bench after a use. -/
def perform (b : Bench) (use : Use) : Bench :=
  let after := (b.seat use.simulator).perform use.event
  ⟨Function.update b.simulators use.simulator after.simulator, after.circuit⟩

/-- What is reported for several uses in turn. -/
def answers : List Use → Bench → List Answer
  | [], _ => []
  | use :: uses, b => b.answer use :: answers uses (b.perform use)

/-- The bench after several uses. -/
def performAll (uses : List Use) (b : Bench) : Bench := uses.foldl perform b

/-- A run in which every event leaves the topology alone keeps the frame of the circuit. -/
theorem frame_performAll (b : Bench) {uses : List Use}
    (huses : ∀ use ∈ uses, use.event.KeepsTopology) :
    (b.performAll uses).circuit.frame = b.circuit.frame := by
  induction uses generalizing b with
  | nil => rfl
  | cons use uses ih =>
      obtain ⟨huse, huses⟩ := List.forall_mem_cons.1 huses
      exact (ih (b.perform use) huses).trans ((b.seat use.simulator).frame_perform huse)

/-- No simulator can tell its circuit from that of the other bench. -/
def Together (b b' : Bench) : Prop := ∀ i, (b.seat i).Together (b'.seat i)

namespace Together

variable {b b' : Bench}

theorem of_alike {c d : Circuit} (h : c.Alike d) (settings : Nat → Settings) :
    Together (.new settings c) (.new settings d) :=
  fun i => .of_alike h (settings i)

/-- A use reports the same at both benches. For the simulator that is used this is what happens to
a session; the others find circuits whose outlines agree and whose revisions they know or do not
know as before. -/
theorem perform (h : Together b b') {use : Use} (hevent : use.event.KeepsTopology) :
    b'.answer use = b.answer use ∧ Together (b.perform use) (b'.perform use) := by
  obtain ⟨hanswer, hused⟩ := (h use.simulator).perform hevent
  refine ⟨hanswer, fun i => ?_⟩
  by_cases hi : i = use.simulator
  · have hseat : ∀ b : Bench, (b.perform use).seat i =
        (b.seat use.simulator).perform use.event := fun b => by
      simp only [hi, seat, Bench.perform, Function.update_self]
    rw [hseat, hseat]
    exact hused
  · have hseat : ∀ b : Bench, (b.perform use).seat i =
        ⟨b.simulators i, ((b.seat use.simulator).perform use.event).circuit⟩ := fun b => by
      simp only [seat, Bench.perform, Function.update_of_ne hi]
    have hrevision : ∀ b : Bench,
        ((b.seat use.simulator).perform use.event).circuit.revision = b.circuit.revision :=
      fun b => Circuit.revision_of_frame ((b.seat use.simulator).frame_perform hevent)
    rw [hseat, hseat]
    exact Session.InStep.withCircuits (h i) hused.outline (hrevision b) (hrevision b')

/-- The same holds for every run. -/
theorem performAll (h : Together b b') {uses : List Use}
    (huses : ∀ use ∈ uses, use.event.KeepsTopology) :
    b'.answers uses = b.answers uses ∧ Together (b.performAll uses) (b'.performAll uses) := by
  induction uses generalizing b b' with
  | nil => exact ⟨rfl, h⟩
  | cons use uses ih =>
      obtain ⟨huse, huses⟩ := List.forall_mem_cons.1 huses
      obtain ⟨hanswer, hafter⟩ := h.perform huse
      obtain ⟨hanswers, hend⟩ := ih hafter huses
      refine ⟨?_, hend⟩
      rw [answers, answers, hanswer, hanswers]

end Together

end Bench

end LogicCircuit
