import LogicCircuit.Circuit.Basic
import LogicCircuit.Expr.Basic

/-!
# From circuits to expressions

The expression that a component computes, read back along the wires. A source is a variable that
bears its display name, except that a constant without a label is that constant. There is no
expression where a slot on the way is empty or where the wires come back to a gate that is being
read.
-/

namespace LogicCircuit

/-- The expression of a source. -/
def Source.expr (s : Source) (label : Option String) (id : ComponentId) : Expr :=
  match s.kind, label with
  | .high, none => .const true
  | .low, none => .const false
  | _, _ => .var (label.getD id)

/-- The expression of a gate on the expressions of its slots; the negation of NAND and NOR is
spelled out. -/
def Gate.expr? : Gate → List Expr → Option Expr
  | .not, a :: _ => some (.not a)
  | .and, a :: b :: _ => some (.binary .and a b)
  | .or, a :: b :: _ => some (.binary .or a b)
  | .xor, a :: b :: _ => some (.binary .xor a b)
  | .nand, a :: b :: _ => some (.not (.binary .and a b))
  | .nor, a :: b :: _ => some (.not (.binary .or a b))
  | _, _ => none

namespace Circuit

theorem mem_ids_of_component? {c : Circuit} {id : ComponentId} {x : Component}
    (h : c.component? id = some x) : id ∈ c.ids := by
  unfold component? Roster.get? at h
  have name : x.id = id := by simpa using List.find?_some h
  exact List.mem_map.2 ⟨x, List.mem_of_find?_eq_some h, name⟩

/-- The expression of a source or gate, read inside the gates of `path`. -/
def nodeExpr? (c : Circuit) (path : List ComponentId) (id : ComponentId) : Option Expr :=
  match _known : c.component? id with
  | none => none
  | some x =>
    match x.kind with
    | .source s => some (s.expr x.label id)
    | .sink _ => none
    | .gate g =>
      if _new : id ∈ path then none
      else
        ((c.driversOf id).mapM fun d =>
          match d with
          | none => none
          | some up => c.nodeExpr? (id :: path) up).bind g.expr?
termination_by Traversal.room c.driverGraph path
decreasing_by exact Traversal.room_cons_lt (mem_ids_of_component? _known) _new

/-- The expression of a component; for a sink, that of its first slot. -/
def expr? (c : Circuit) (id : ComponentId) : Option Expr :=
  match c.component? id with
  | none => none
  | some x =>
    if x.kind.isSink then
      match c.driversOf id with
      | some up :: _ => c.nodeExpr? [] up
      | _ => none
    else c.nodeExpr? [] id

/-- The expression of the first sink by name. -/
def firstExpr? (c : Circuit) : Option Expr := c.sinks.head?.bind fun s => c.expr? s.id

/-- The display name and the expression of each sink. -/
def sinkExprs (c : Circuit) : List (String × Option Expr) :=
  c.sinks.map fun s => (s.displayName, c.expr? s.id)

end Circuit

end LogicCircuit
