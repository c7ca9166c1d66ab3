import ScriptTree.Syntax.Kind

/-! Syntax nodes as a grammar presents them: parts by role, modifiers and children. -/
namespace ScriptTree

/-- A node with the parts that can be asked of it. Positions count bytes. -/
structure SyntaxNode where
  kind : KindId
  start : Nat
  stop : Nat
  text : Option String := none
  /-- The part in each role that has one. -/
  fields : List (Role × SyntaxNode) := []
  /-- The parts in each role that holds several. -/
  lists : List (Role × List SyntaxNode) := []
  modifiers : List KindId := []
  children : List SyntaxNode := []

namespace SyntaxNode

mutual

/-- The node and all below it along the children, each before its children. -/
def preorder : SyntaxNode → List SyntaxNode
  | n@{ children := ns, .. } => n :: preorderList ns

def preorderList : List SyntaxNode → List SyntaxNode
  | [] => []
  | n :: ns => preorder n ++ preorderList ns

end

end SyntaxNode

end ScriptTree
