import ScriptTree.Grammar.Basic
import ScriptTree.Json.Basic
import ScriptTree.Offset
import ScriptTree.Syntax.Tree
import ScriptTree.Text.Bytes

/-! Parse trees as JSON objects of their own shape: one member for each label, the unlabelled rest under
`children`. -/
namespace ScriptTree.Native

/-- Labels that would hide a member every object may have. -/
def reserved : List String := ["type", "start", "end", "text", "children"]

/-- The label of a node, unless it is reserved. -/
def label? (info : NodeInfo) : Option String :=
  info.field.filter fun label => !reserved.contains label

/-- What a child adds to its parent. -/
inductive Part where
  /-- A value under a label. -/
  | field (label : String) (value : Json)
  /-- One of the unlabelled children. -/
  | child (value : Json)
  /-- Nothing. -/
  | skip

def Part.field? : Part → Option (String × Json)
  | .field label value => some (label, value)
  | _ => none

def Part.child? : Part → Option Json
  | .child value => some value
  | _ => none

/-- Adds a value under a label, behind the values that the label already has. -/
def insert (label : String) (value : Json) : List (String × List Json) → List (String × List Json)
  | [] => [(label, [value])]
  | (l, values) :: groups =>
    if l = label then (l, values ++ [value]) :: groups else (l, values) :: insert label value groups

/-- The values of each label, labels in the order of their first values. -/
def group (fields : List (String × Json)) : List (String × List Json) :=
  fields.foldl (fun groups (label, value) => insert label value groups) []

/-- A single value stands for itself, several are an array. -/
def collapse : List Json → Json
  | [value] => value
  | values => .arr values

/-- The members that the parts of a node make up. -/
def membersOf (parts : List Part) : List (String × Json) :=
  (group (parts.filterMap Part.field?)).map (fun (label, values) => (label, collapse values)) ++
    match parts.filterMap Part.child? with
    | [] => []
    | values => [("children", .arr values)]

/-- The source of a node as a JSON string. -/
def sliceOf (source : List Char) (info : NodeInfo) : Json :=
  .str (String.ofList (Text.slice source info.start info.stop))

mutual

/-- A tree of the source as a JSON object. Tokens and nodes without named children have their text. -/
def ofTree (g : Grammar) (source : List Char) (offsets : OffsetMap) : Tree → Json
  | .node info children =>
    .obj
      (("type", .str info.kindName) ::
       ("start", .nat (offsets.offset info.start)) ::
       ("end", .nat (offsets.offset info.stop)) ::
       if g.isAtomic info.kind || !(children.any (·.info.named)) then [("text", sliceOf source info)]
       else membersOf (partsOf g source offsets children))

/-- What each child adds: a named one its tree, a comment or token its source if it has a label. -/
def partsOf (g : Grammar) (source : List Char) (offsets : OffsetMap) : List Tree → List Part
  | [] => []
  | t :: ts =>
    (match t.info.isPart, label? t.info with
     | true, some label => .field label (ofTree g source offsets t)
     | true, none => .child (ofTree g source offsets t)
     | false, some label => .field label (sliceOf source t.info)
     | false, none => .skip) :: partsOf g source offsets ts

end

end ScriptTree.Native
