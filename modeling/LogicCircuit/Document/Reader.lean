import LogicCircuit.Document.Basic
import LogicCircuit.Json.Reader

/-!
# Reading circuit documents

A record is an object of named fields or an array of its fields in order. A known field may not be
there twice; an unknown field is passed over, whatever it holds. A field that may be absent has a
default.
-/

namespace LogicCircuit

namespace Json

/-- A text. -/
def asText? : Json → Option String
  | text s => s
  | _ => none

/-- A truth value. -/
def asBool? : Json → Option Bool
  | bool on => some on
  | _ => none

/-- A whole number of 64 bits. -/
def asWord? : Json → Option Nat
  | number digits => (Numeral.ofChars? digits.toList).bind (·.word?)
  | _ => none

/-- A floating point number. -/
def asFloat? : Json → Option Float
  | number digits => (Numeral.ofChars? digits.toList).bind (·.float?)
  | _ => none

/-- The items of an array that all have some form. -/
def asList? {α : Type} (item : Json → Option α) : Json → Option (List α)
  | array items => items.mapM item
  | _ => none

/-- Null, or what has some form. -/
def orNull? {α : Type} (form : Json → Option α) : Json → Option (Option α)
  | null => some none
  | v => (form v).map some

/-- What is known of the fields of a record, by name. -/
abbrev Fields := List (String × Json)

/-- The fields with some names among those of an object, unless one of them is there twice or the
name of any field is no text. -/
def knownFields? (names : List String) : List (Option String × Json) → Option Fields
  | [] => some []
  | (none, _) :: _ => none
  | (some name, v) :: fields => do
    let rest ← knownFields? names fields
    if name ∈ names then
      if (rest.lookup name).isSome then none else some ((name, v) :: rest)
    else some rest

/-- The fields of a record with some names: those of an object, or the items of an array in order.
-/
def fields? (names : List String) : Json → Option Fields
  | object fields => knownFields? names fields
  | array items => if items.length ≤ names.length then some (names.zip items) else none
  | _ => none

/-- A field that has to be there. -/
def Fields.required? {α : Type} (f : Fields) (name : String) (form : Json → Option α) :
    Option α :=
  (f.lookup name).bind form

/-- A field that may be absent. -/
def Fields.optional? {α : Type} (f : Fields) (name : String) (default : α)
    (form : Json → Option α) : Option α :=
  match f.lookup name with
  | some v => form v
  | none => some default

end Json

open Json in
/-- A value of a component: a truth value or a number of 8 bits. -/
def Value.ofJson? : Json → Option Value
  | .bool on => some (.bit on)
  | v => do
    let n ← v.asWord?
    if n < 256 then some (.number n) else none

/-- The direction of a name. -/
def Direction.ofName? (name : String) : Option Direction :=
  if name = "input" then some .input else if name = "output" then some .output else none

/-- A direction: its name, or an object that holds null under its name. -/
def Direction.ofJson? : Json → Option Direction
  | .text (some name) => ofName? name
  | .object [(some name, .null)] => ofName? name
  | _ => none

namespace ComponentRecord

/-- The number of slots: a number, or a list with the wire on each slot. -/
def arityOf? (v : Json) : Option Nat :=
  match v.asWord? with
  | some n => some n
  | none => (v.asList? (Json.orNull? Json.asText?)).map (·.length)

/-- The names of the fields, in order. -/
def fieldNames : List String :=
  ["id", "type", "subtype", "x", "y", "inputs", "output", "label", "value",
    "frequency", "enabled"]

/-- A component as a document lists it. -/
def ofJson? (v : Json) : Option ComponentRecord := do
  let f ← v.fields? fieldNames
  return {
    id := ← f.required? "id" Json.asText?
    category := ← f.required? "type" Json.asText?
    subtype := ← f.required? "subtype" Json.asText?
    position := ⟨← f.required? "x" Json.asFloat?, ← f.required? "y" Json.asFloat?⟩
    arity := ← f.optional? "inputs" 0 arityOf?
    output := ← f.optional? "output" none (Json.orNull? Value.ofJson?)
    label := ← f.optional? "label" none (Json.orNull? Json.asText?)
    value := ← f.optional? "value" none (Json.orNull? Value.ofJson?)
    frequency := ← f.optional? "frequency" none (Json.orNull? Json.asFloat?)
    enabled := ← f.optional? "enabled" none (Json.orNull? Json.asBool?) }

end ComponentRecord

namespace WireRecord

/-- The names of the fields, in order. -/
def fieldNames : List String :=
  ["id", "fromComponentId", "fromPortType", "fromPortIndex", "toComponentId", "toPortType",
    "toPortIndex"]

/-- A wire as a document lists it. -/
def ofJson? (v : Json) : Option WireRecord := do
  let f ← v.fields? fieldNames
  return {
    id := ← f.required? "id" Json.asText?
    source := ← f.required? "fromComponentId" Json.asText?
    sourcePort := ⟨← f.required? "fromPortType" Direction.ofJson?,
      ← f.optional? "fromPortIndex" 0 Json.asWord?⟩
    target := ← f.required? "toComponentId" Json.asText?
    targetPort := ⟨← f.required? "toPortType" Direction.ofJson?,
      ← f.required? "toPortIndex" Json.asWord?⟩ }

end WireRecord

namespace Document

/-- A circuit document. -/
def ofJson? (v : Json) : Option Document := do
  let f ← v.fields? ["components", "connections"]
  return {
    components := ← f.required? "components" (Json.asList? ComponentRecord.ofJson?)
    wires := ← f.optional? "connections" [] (Json.asList? WireRecord.ofJson?) }

/-- The circuit of a document, given the bytes of its text, with the wires that were skipped. -/
def load (s : List UInt8) (strict : Bool) : Except DocumentError (LoadReport × Circuit) :=
  match (Json.ofBytes? s).bind ofJson? with
  | none => .error .malformed
  | some d => d.toCircuit strict

end Document

end LogicCircuit
