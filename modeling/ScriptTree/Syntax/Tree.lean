import ScriptTree.Syntax.Kind

/-! Parse trees, and the rows in which a parser hands them over. -/
namespace ScriptTree

/-- One node of a parse tree without its children. Positions count bytes of the source. -/
structure NodeInfo where
  kind : KindId
  kindName : String
  /-- The label under which the node stands in its parent. -/
  field : Option String := none
  named : Bool := false
  /-- Comments and the like, which may stand anywhere. -/
  extra : Bool := false
  /-- Made up by the parser where it missed a token. -/
  missing : Bool := false
  /-- Around source that the parser could not make sense of. -/
  error : Bool := false
  start : Nat
  stop : Nat
  deriving DecidableEq, Repr

/-- A parse tree with all its nodes, tokens and comments included. -/
inductive Tree where
  | node (info : NodeInfo) (children : List Tree)
  deriving Repr

/-- Whether a node is named and no comment. -/
def NodeInfo.isPart (i : NodeInfo) : Bool := i.named && !i.extra

/-- Whether a node counts as a child: a named node that is no comment, or a token under a label. -/
def NodeInfo.isVisible (i : NodeInfo) : Bool :=
  if i.named then !i.extra else i.field.isSome

/-- Whether the parser found a fault at the node. -/
def NodeInfo.isFault (i : NodeInfo) : Bool := i.error || i.missing

namespace Tree

def info : Tree → NodeInfo
  | .node i _ => i

def children : Tree → List Tree
  | .node _ cs => cs

mutual

def size : Tree → Nat
  | .node _ cs => 1 + sizeList cs

def sizeList : List Tree → Nat
  | [] => 0
  | t :: ts => t.size + sizeList ts

end

/-- One row of a tree written in preorder: the depth of a node and the node. -/
structure Row where
  depth : Nat
  info : NodeInfo
  deriving DecidableEq, Repr

/-- Puts a row in front of the trees that the later rows make up. Its children are those of them,
from the front, that are deeper. -/
def graft (row : Row) (later : List (Nat × Tree)) : List (Nat × Tree) :=
  let below := later.takeWhile fun t => row.depth < t.1
  (row.depth, .node row.info (below.map (·.2))) :: later.dropWhile fun t => row.depth < t.1

/-- The tree that the rows describe, if they describe one. -/
def ofRows? (rows : List Row) : Option Tree :=
  match rows.foldr graft [] with
  | [(_, t)] => some t
  | _ => none

end Tree

end ScriptTree
