import ScriptTree.Grammar.Basic
import ScriptTree.Syntax.Node
import ScriptTree.Syntax.StringLiteral
import ScriptTree.Syntax.Tree

/-! Reading a parse tree with a grammar: which child plays which role, what modifies a node, which
children are part of the syntax, and which nodes have a text. -/
namespace ScriptTree

/-- What a parent needs to know of a child that has been read. -/
structure Reading where
  info : NodeInfo
  node : SyntaxNode
  /-- The named children without comments. -/
  parts : List SyntaxNode
  /-- The kind of the first child. -/
  firstKind : Option KindId

namespace Reading

/-- The label of the child in a role of a node of the given category. -/
def fieldLabel? : Category → Role → Option String
  | .propertyAccess, .expression => some "object"
  | .propertyAccess, .name => some "property"
  | .call, .expression => some "function"
  | _, .name => some "name"
  | _, .type => some "type"
  | _, .returnType => some "return_type"
  | _, .initializer => some "value"
  | _, .body => some "body"
  | _, _ => none

/-- The label of the child that holds the parts of a role. -/
def listLabel? : Role → Option String
  | .arguments => some "arguments"
  | .parameters => some "parameters"
  | .members => some "body"
  | _ => none

def labelled? (children : List Reading) (label : String) : Option Reading :=
  children.find? fun c => c.info.field == some label

/-- An annotation stands for its first part, if it has one. -/
def unwrap (g : Grammar) (c : Reading) : SyntaxNode :=
  if g.isTypeWrapper c.info.kind then c.parts.head?.getD c.node else c.node

/-- The child in a role; types are unwrapped. -/
def field? (g : Grammar) (category : Category) (children : List Reading) (role : Role) :
    Option SyntaxNode := do
  let label ← fieldLabel? category role
  let c ← labelled? children label
  some (if role = .type ∨ role = .returnType then unwrap g c else c.node)

/-- The parts in a role. Arguments have to be held by a node of that kind. -/
def list? (children : List Reading) (role : Role) : Option (List SyntaxNode) := do
  let label ← listLabel? role
  let holder ← labelled? children label
  if role = .arguments ∧ holder.info.kindName ≠ "arguments" then none else some holder.parts

/-- The kind of the modifier that a child is or wraps. A child under a label is none. -/
def modifier? (g : Grammar) (c : Reading) : Option KindId :=
  if c.info.field.isSome then none
  else if g.isModifier c.info.kind then some c.info.kind
  else if g.isWrapper c.info.kind then c.firstKind
  else none

/-- The text of a node: that denoted by a string, the source of a token. -/
def text? (g : Grammar) (source : List Char) (info : NodeInfo) (isLeaf : Bool) : Option String :=
  let raw := Text.slice source info.start info.stop
  if g.category info.kind = .literal ∧ info.kindName = "string" then
    some (String.ofList (StringLiteral.value raw))
  else if g.isAtomic info.kind ∨ isLeaf then some (String.ofList raw)
  else none

def ofChildren (g : Grammar) (source : List Char) (info : NodeInfo) (children : List Reading) :
    Reading where
  info := info
  node :=
    { kind := info.kind
      start := info.start
      stop := info.stop
      text := text? g source info children.isEmpty
      fields := Role.all.filterMap fun role =>
        (field? g (g.category info.kind) children role).map (role, ·)
      lists := Role.all.filterMap fun role => (list? children role).map (role, ·)
      modifiers :=
        if g.isKeywordOwner info.kind then [] else children.filterMap (modifier? g)
      children :=
        if g.isAtomic info.kind then [] else (children.filter (·.info.isVisible)).map (·.node) }
  parts := (children.filter (·.info.isPart)).map (·.node)
  firstKind := children.head?.map (·.info.kind)

end Reading

mutual

/-- A tree of the source read with a grammar. -/
def Tree.read (g : Grammar) (source : List Char) : Tree → Reading
  | .node info children => .ofChildren g source info (Tree.readList g source children)

def Tree.readList (g : Grammar) (source : List Char) : List Tree → List Reading
  | [] => []
  | t :: ts => t.read g source :: Tree.readList g source ts

end

/-- The syntax node that a grammar makes of a tree of the source. -/
def Tree.toSyntax (g : Grammar) (source : List Char) (t : Tree) : SyntaxNode :=
  (t.read g source).node

end ScriptTree
