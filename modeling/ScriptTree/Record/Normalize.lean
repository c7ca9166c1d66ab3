import ScriptTree.Offset
import ScriptTree.Record.Basic
import ScriptTree.Syntax.Node

/-! Describing syntax nodes by records. Which parts are described depends on the category of the
node alone. -/
namespace ScriptTree.Record

def nonempty? {α : Type} : List α → Option (List α)
  | [] => none
  | a :: as => some (a :: as)

/-- The record of a node without the parts that depend on its category. -/
def base (table : KindTable) (offsets : OffsetMap) (kind : KindId) (start stop : Nat)
    (text : Option String) (modifiers : List KindId) (children : List Record) : Record where
  kind := table.kindName kind
  kindNumber := kind
  pos := some (offsets.offset start)
  stop := some (offsets.offset stop)
  text := text
  modifiers := nonempty? (modifiers.map fun m => ⟨table.kindName m, m⟩)
  children := nonempty? children

mutual

def ofNode (table : KindTable) (offsets : OffsetMap) : SyntaxNode → Record
  | { kind, start, stop, text, fields, lists, modifiers, children } =>
    let r := base table offsets kind start stop text modifiers (ofNodes table offsets children)
    match table.category kind with
    | .identifier => { r with name := text.map .text }
    | .literal => { r with value := text }
    | .propertyAccess =>
      { r with
        expression := ofField table offsets .expression fields
        name := (ofField table offsets .name fields).map .node }
    | .call =>
      { r with
        expression := ofField table offsets .expression fields
        arguments := some ((ofList table offsets .arguments lists).getD []) }
    | .variableDeclaration =>
      { r with
        name := (ofField table offsets .name fields).map .node
        type := ofField table offsets .type fields
        initializer := ofField table offsets .initializer fields }
    | .functionLike =>
      { r with
        name := (ofField table offsets .name fields).map .node
        parameters := ofList table offsets .parameters lists
        returnType := ofField table offsets .returnType fields
        body := ofField table offsets .body fields }
    | .interface =>
      { r with
        name := (ofField table offsets .name fields).map .node
        members := ofList table offsets .members lists }
    | .propertySignature =>
      { r with
        name := (ofField table offsets .name fields).map .node
        type := ofField table offsets .type fields }
    | .other => r

def ofNodes (table : KindTable) (offsets : OffsetMap) : List SyntaxNode → List Record
  | [] => []
  | n :: ns => ofNode table offsets n :: ofNodes table offsets ns

/-- The record of the part in a role. -/
def ofField (table : KindTable) (offsets : OffsetMap) (role : Role) :
    List (Role × SyntaxNode) → Option Record
  | [] => none
  | (r, n) :: fields =>
    if r = role then some (ofNode table offsets n) else ofField table offsets role fields

/-- The records of the parts in a role. -/
def ofList (table : KindTable) (offsets : OffsetMap) (role : Role) :
    List (Role × List SyntaxNode) → Option (List Record)
  | [] => none
  | (r, ns) :: lists =>
    if r = role then some (ofNodes table offsets ns) else ofList table offsets role lists

end

end ScriptTree.Record
