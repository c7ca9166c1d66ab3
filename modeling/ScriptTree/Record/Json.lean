import ScriptTree.Json.Basic
import ScriptTree.Record.Basic

/-! Records as JSON values. Members stand in a fixed order and absent ones are left out; on reading
their order is free, unknown ones are ignored and null means absent. -/
namespace ScriptTree

/-- The members of a record, in the order in which they are written. -/
inductive Record.Key where
  | kind
  | kindNumber
  | pos
  | stop
  | text
  | name
  | value
  | expression
  | arguments
  | type
  | returnType
  | initializer
  | parameters
  | body
  | members
  | modifiers
  | children
  deriving DecidableEq, Repr

namespace Record

/-- The name of a member as it is written. -/
def Key.label : Key → String
  | .kind => "kind"
  | .kindNumber => "kindNumber"
  | .pos => "pos"
  | .stop => "end"
  | .text => "text"
  | .name => "name"
  | .value => "value"
  | .expression => "expression"
  | .arguments => "arguments"
  | .type => "type"
  | .returnType => "returnType"
  | .initializer => "initializer"
  | .parameters => "parameters"
  | .body => "body"
  | .members => "members"
  | .modifiers => "modifiers"
  | .children => "children"

def Key.all : List Key :=
  [.kind, .kindNumber, .pos, .stop, .text, .name, .value, .expression, .arguments, .type, .returnType,
   .initializer, .parameters, .body, .members, .modifiers, .children]

/-- A member, if there is a value for it. -/
def member (key : Key) : Option Json → List (String × Json)
  | none => []
  | some j => [(key.label, j)]

end Record

def Modifier.toJson (m : Modifier) : Json :=
  .obj [("kind", .str m.kind), ("kindNumber", .nat m.kindNumber.toNat)]

namespace Record

mutual

def toJson : Record → Json
  | { kind, kindNumber, pos, stop, text, name, value, expression, arguments, type, returnType,
      initializer, parameters, body, members, modifiers, children } =>
    .obj
      (member .kind (some (.str kind)) ++
       member .kindNumber (some (.nat kindNumber.toNat)) ++
       member .pos (pos.map .nat) ++
       member .stop (stop.map .nat) ++
       member .text (text.map .str) ++
       member .name (nameToJson name) ++
       member .value (value.map .str) ++
       member .expression (optionToJson expression) ++
       member .arguments (listOptionToJson arguments) ++
       member .type (optionToJson type) ++
       member .returnType (optionToJson returnType) ++
       member .initializer (optionToJson initializer) ++
       member .parameters (listOptionToJson parameters) ++
       member .body (optionToJson body) ++
       member .members (listOptionToJson members) ++
       member .modifiers (modifiers.map fun ms => .arr (ms.map Modifier.toJson)) ++
       member .children (listOptionToJson children))

def nameToJson : Option (Name Record) → Option Json
  | none => none
  | some (.text s) => some (.str s)
  | some (.node r) => some r.toJson

def optionToJson : Option Record → Option Json
  | none => none
  | some r => some r.toJson

def listOptionToJson : Option (List Record) → Option Json
  | none => none
  | some rs => some (.arr (listToJson rs))

def listToJson : List Record → List Json
  | [] => []
  | r :: rs => r.toJson :: listToJson rs

end

end Record

/-- A modifier from a JSON object, or from an array of its two members. -/
def Modifier.ofJson? : Json → Option Modifier
  | .arr [kind, kindNumber] => do
    some ⟨← kind.str?, ← kindNumber.uint16?⟩
  | .obj ms => do
    some ⟨← ((Json.obj ms).get? "kind").bind Json.str?,
      ← ((Json.obj ms).get? "kindNumber").bind Json.uint16?⟩
  | _ => none

namespace Record

/-- A JSON value with the record or the records that it can be read as. -/
structure Decoded where
  json : Json
  record : Option Record
  records : Option (List Record)

/-- A member that may be left out or null, read by `f`. -/
def optional {α : Type} (f : Decoded → Option α) : Option Decoded → Option (Option α)
  | none => some none
  | some { json := .null, .. } => some none
  | some d => (f d).map some

/-- A name is a text or a record. -/
def nameOf? (d : Decoded) : Option (Name Record) :=
  match d.json with
  | .str t => some (.text t)
  | _ => d.record.map .node

def modifiersOf? (d : Decoded) : Option (List Modifier) :=
  d.json.arr?.bind (·.mapM Modifier.ofJson?)

/-- The record whose members are given by `slot`. Kind and number have to be there. -/
def ofSlots? (slot : Key → Option Decoded) : Option Record := do
  some
    { kind := ← (slot .kind).bind (·.json.str?)
      kindNumber := ← (slot .kindNumber).bind (·.json.uint16?)
      pos := ← optional (·.json.natBelow? UInt64.size) (slot .pos)
      stop := ← optional (·.json.natBelow? UInt64.size) (slot .stop)
      text := ← optional (·.json.str?) (slot .text)
      name := ← optional nameOf? (slot .name)
      value := ← optional (·.json.str?) (slot .value)
      expression := ← optional (·.record) (slot .expression)
      arguments := ← optional (·.records) (slot .arguments)
      type := ← optional (·.record) (slot .type)
      returnType := ← optional (·.record) (slot .returnType)
      initializer := ← optional (·.record) (slot .initializer)
      parameters := ← optional (·.records) (slot .parameters)
      body := ← optional (·.record) (slot .body)
      members := ← optional (·.records) (slot .members)
      modifiers := ← optional modifiersOf? (slot .modifiers)
      children := ← optional (·.records) (slot .children) }

/-- The record of an object with the given members. -/
def ofMembers? (ms : List (String × Decoded)) : Option Record :=
  ofSlots? fun key => (ms.reverse.find? (·.1 == key.label)).map (·.2)

/-- The record of an array that holds the members in order, later ones possibly left out. -/
def ofItems? (items : List Decoded) : Option Record :=
  if items.length ≤ Key.all.length then
    ofSlots? fun key => ((Key.all.zip items).find? (·.1 == key)).map (·.2)
  else none

mutual

/-- What a JSON value can be read as. -/
def decode : Json → Decoded
  | .scalar s => ⟨.scalar s, none, none⟩
  | .arr items =>
    let decoded := decodeItems items
    ⟨.arr items, ofItems? decoded, decoded.mapM (·.record)⟩
  | .obj ms => ⟨.obj ms, ofMembers? (decodeMembers ms), none⟩

/-- What the elements of an array can be read as. -/
def decodeItems : List Json → List Decoded
  | [] => []
  | j :: js => decode j :: decodeItems js

/-- What the members of an object can be read as. -/
def decodeMembers : List (String × Json) → List (String × Decoded)
  | [] => []
  | (key, j) :: ms => (key, decode j) :: decodeMembers ms

end

def ofJson? (j : Json) : Option Record :=
  (decode j).record

end Record

end ScriptTree
