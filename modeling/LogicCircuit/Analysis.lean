import LogicCircuit.Extraction

/-!
# Analysis

Figures about a circuit, what is wrong with it and what could be simpler. The depth of a component
is the number of gates and sinks on the longest way to it from a source.
-/

namespace LogicCircuit

/-- Something wrong with a circuit. -/
inductive Warning where
  /-- A gate has an empty slot. -/
  | unconnectedInput (id : ComponentId)
  /-- The first slot of a sink is empty. -/
  | floatingOutput (id : ComponentId)
  /-- Wires form a cycle. -/
  | feedbackLoop
  deriving DecidableEq, Repr

/-- The wording of a warning. -/
def Warning.message : Warning → String
  | unconnectedInput id => s!"Gate {id} has unconnected inputs"
  | floatingOutput id => s!"Output {id} is not connected"
  | feedbackLoop => "Circuit contains feedback loops"

/-- Something that could be simpler. -/
inductive Suggestion where
  /-- An inverter on an inverter. -/
  | doubleNegation (outer inner : ComponentId)
  /-- An AND or OR of one component with itself. -/
  | redundantGate (id : ComponentId) (gate : Gate)
  deriving DecidableEq, Repr

/-- The wording of a suggestion. -/
def Suggestion.message : Suggestion → String
  | doubleNegation outer inner => s!"Double negation can be removed ({outer} and {inner})"
  | redundantGate id gate => s!"{gate.name} gate with identical inputs can be simplified ({id})"

/-- Figures about a circuit and remarks on it. -/
structure Analysis where
  /-- The number of sources. -/
  inputs : Nat
  /-- The number of sinks. -/
  outputs : Nat
  /-- The number of gates. -/
  gates : Nat
  /-- The number of wires. -/
  wires : Nat
  /-- The number of gates of each kind that occurs. -/
  usage : List (Gate × Nat)
  /-- The depth of the deepest component. -/
  depth : Nat
  /-- The cost of the gates and half the depth. -/
  complexity : Float
  /-- What is wrong. -/
  warnings : List Warning
  /-- The expression of the first sink. -/
  expression : Option String
  /-- What could be simpler. -/
  suggestions : List Suggestion

namespace Circuit

/-- The functions of the gates, by name of the component. -/
def gateFunctions (c : Circuit) : List Gate := c.gates.filterMap (·.kind.gate?)

/-- The number of gates of each kind that occurs. -/
def usage (c : Circuit) : List (Gate × Nat) :=
  (Gate.all.map fun g => (g, c.gateFunctions.count g)).filter (·.2 != 0)

/-- The depth of a component below the open ones of `path`, and the depths that are known
afterwards. A component that is open counts as a source. -/
def depthBelow (c : Circuit) (path : List ComponentId) (known : List (ComponentId × Nat))
    (id : ComponentId) : Nat × List (ComponentId × Nat) :=
  match known.lookup id with
  | some depth => (depth, known)
  | none =>
    match _exists : c.component? id with
    | none => (0, known)
    | some x =>
      if x.kind.isSource then (0, (id, 0) :: known)
      -- a way that comes back to an open component is cut there, and nothing is noted about it
      else if _new : id ∈ path then (0, known)
      else
        let below := (c.driverGraph.next id).foldl (fun state up =>
          let r := c.depthBelow (id :: path) state.2 up
          (max state.1 r.1, r.2)) (0, known)
        (below.1 + 1, (id, below.1 + 1) :: below.2)
termination_by Traversal.room c.driverGraph path
decreasing_by exact Traversal.room_cons_lt (mem_ids_of_component? _exists) _new

/-- The depth of the deepest component. -/
def depth (c : Circuit) : Nat :=
  (c.ids.foldl (fun state id =>
    let r := c.depthBelow [] state.2 id
    (max state.1 r.1, r.2)) (0, [])).1

/-- The cost of the gates and half a given depth. -/
def complexity (c : Circuit) (depth : Nat) : Float :=
  (c.gateFunctions.foldl (fun sum g => sum + g.weight) 0) + 0.5 * Float.ofNat depth

/-- What is wrong: gates with empty slots, cycles, and sinks with an empty first slot. -/
def warnings (c : Circuit) : List Warning :=
  (c.gates.filter fun g => g.slots.any (·.isNone)).map (fun g => .unconnectedInput g.id) ++
    (if c.hasCycle then [.feedbackLoop] else []) ++
    (c.sinks.filter fun s => (s.slots.head?.bind fun slot => slot).isNone).map fun s =>
      .floatingOutput s.id

/-- What could be simpler about a gate with the given drivers. -/
def suggestion? (c : Circuit) (id : ComponentId) :
    Gate → List (Option ComponentId) → Option Suggestion
  | .not, some inner :: _ =>
    if ((c.component? inner).bind (·.kind.gate?)) = some .not then
      some (.doubleNegation id inner)
    else none
  | .and, some a :: some b :: _ => if a = b then some (.redundantGate id .and) else none
  | .or, some a :: some b :: _ => if a = b then some (.redundantGate id .or) else none
  | _, _ => none

/-- What could be simpler, by gate. -/
def suggestions (c : Circuit) : List Suggestion :=
  c.gates.filterMap fun x => x.kind.gate?.bind fun g => c.suggestion? x.id g (c.driversOf x.id)

/-- The analysis of a circuit. -/
def analyze (c : Circuit) : Analysis where
  inputs := c.sources.length
  outputs := c.sinks.length
  gates := c.gates.length
  wires := c.wires.size
  usage := c.usage
  depth := c.depth
  complexity := c.complexity c.depth
  warnings := c.warnings
  expression := c.firstExpr?.map (·.text)
  suggestions := c.suggestions

end Circuit

end LogicCircuit
