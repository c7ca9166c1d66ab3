import ScriptTree.Syntax.Tree

/-! A cursor that visits the nodes of a tree in preorder. Each step leaves fewer nodes to visit. -/
namespace ScriptTree

/-- A place in a tree: the tree there, its depth, and for it and each tree around it but the whole the
trees to the right of it, innermost first. -/
structure Cursor where
  focus : Tree
  depth : Nat
  right : List (List Tree)

namespace Cursor

/-- The cursor at the top of a tree. -/
def top (t : Tree) : Cursor := ⟨t, 0, []⟩

/-- The number of nodes to the right on all levels. -/
def rightSize : List (List Tree) → Nat
  | [] => 0
  | ts :: right => Tree.sizeList ts + rightSize right

/-- The number of nodes at and after the cursor. -/
def remaining (c : Cursor) : Nat :=
  c.focus.size + rightSize c.right

/-- The next tree to the right, of the innermost level that has one. -/
def leave : Nat → List (List Tree) → Option Cursor
  | _, [] => none
  | depth, [] :: right => leave (depth - 1) right
  | depth, (t :: ts) :: right => some ⟨t, depth, ts :: right⟩

def next (c : Cursor) : Option Cursor :=
  match c.focus.children with
  | t :: ts => some ⟨t, c.depth + 1, ts :: c.right⟩
  | [] => leave c.depth c.right

theorem remaining_leave {depth : Nat} {right : List (List Tree)} {c : Cursor}
    (h : leave depth right = some c) : c.remaining = rightSize right := by
  fun_induction leave depth right with
  | case1 => simp at h
  | case2 depth right ih => simpa [rightSize, Tree.sizeList] using ih h
  | case3 depth t ts right =>
    obtain rfl := Option.some.inj h
    simp [remaining, rightSize, Tree.sizeList, Nat.add_assoc]

theorem remaining_next {c d : Cursor} (h : c.next = some d) : d.remaining < c.remaining := by
  obtain ⟨⟨info, children⟩, depth, right⟩ := c
  cases children with
  | nil =>
    have := remaining_leave (by simpa [next, Tree.children] using h)
    simp [remaining, Tree.size, Tree.sizeList] at this ⊢
    omega
  | cons t ts =>
    simp only [next, Tree.children, Option.some.injEq] at h
    subst h
    simp [remaining, rightSize, Tree.size, Tree.sizeList]
    omega

end Cursor

end ScriptTree
