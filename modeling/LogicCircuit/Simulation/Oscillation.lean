import LogicCircuit.Circuit.Basic

/-!
# Oscillation

A guard over the latest states of a simulation. `Guard.record` adds a state to the window; once
the window is full and holds at least two different states, a state that fills enough of it is
reported, and the window starts afresh.
-/

namespace LogicCircuit

/-- A state that was seen too often. -/
structure Oscillation where
  /-- The state. -/
  pattern : String
  /-- How often it is in the window. -/
  count : Nat
  deriving DecidableEq, Repr

/-- The text of a report. -/
def Oscillation.text (o : Oscillation) : String :=
  s!"Oscillation detected: state seen {o.count} times ({o.pattern})"

/-- The state of a circuit as text: the outputs of the components, by name. -/
def Circuit.snapshot (c : Circuit) : String :=
  ",".intercalate (c.components.entries.map fun x => x.id ++ ":" ++ if x.output then "1" else "0")

/-- The latest states of a simulation. -/
structure Guard where
  /-- How many states make up a full window. -/
  size : Nat
  /-- How often a state has to be in the window to be reported. -/
  threshold : Nat
  /-- The latest states, the oldest first. -/
  window : List String
  deriving DecidableEq, Repr

namespace Guard

/-- A guard that has seen nothing. -/
def ofSize (size threshold : Nat) : Guard := ⟨size, threshold, []⟩

/-- The guard without its states. -/
def clear (g : Guard) : Guard := { g with window := [] }

/-- The latest `size` states of a list. -/
def latest (size : Nat) (states : List String) : List String := states.drop (states.length - size)

/-- Whether a list holds two different states. -/
def isMixed : List String → Bool
  | [] => false
  | s :: states => states.any (· != s)

/-- The first state that is often enough in a window. -/
def repeated? (threshold : Nat) (window : List String) : Option Oscillation :=
  (window.find? fun s => threshold ≤ window.count s).map fun s => ⟨s, window.count s⟩

/-- The report on a window, unless it is not full or holds a single state. -/
def judge? (g : Guard) (window : List String) : Option Oscillation :=
  if g.size ≤ window.length && isMixed window then repeated? g.threshold window else none

/-- Adds a state, and reports a state that was seen too often. The window is empty after a
report. -/
def record (g : Guard) (state : String) : Option Oscillation × Guard :=
  let window := latest g.size (g.window ++ [state])
  match g.judge? window with
  | some o => (some o, g.clear)
  | none => (none, { g with window })

end Guard

end LogicCircuit
