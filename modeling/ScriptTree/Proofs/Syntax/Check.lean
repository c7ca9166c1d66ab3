import Mathlib.Tactic.SplitIfs
import ScriptTree.Syntax.Check

/-! The cursor visits every node once, in preorder, and the check is decided by the first node on that way
that has something wrong. -/
namespace ScriptTree

namespace Tree

mutual

/-- The nodes in preorder, each with its depth, for a tree at a depth. -/
def rows (depth : Nat) : Tree → List Row
  | .node info children => ⟨depth, info⟩ :: rowsList (depth + 1) children

def rowsList (depth : Nat) : List Tree → List Row
  | [] => []
  | t :: ts => t.rows depth ++ rowsList depth ts

end

theorem rowsList_eq (depth : Nat) (ts : List Tree) :
    rowsList depth ts = ts.flatMap (rows depth) := by
  induction ts with
  | nil => rfl
  | cons t ts ih => rw [rowsList, ih, List.flatMap_cons]

theorem rows_eq (depth : Nat) (t : Tree) :
    t.rows depth = ⟨depth, t.info⟩ :: t.children.flatMap (rows (depth + 1)) := by
  cases t with
  | node info children => rw [rows, rowsList_eq, Tree.info, Tree.children]

end Tree

namespace Cursor

/-- The nodes to the right on all levels, from a depth outwards. -/
def rightRows : Nat → List (List Tree) → List Tree.Row
  | _, [] => []
  | depth, ts :: right => ts.flatMap (Tree.rows depth) ++ rightRows (depth - 1) right

/-- The nodes at and after the cursor. -/
def rows (c : Cursor) : List Tree.Row := c.focus.rows c.depth ++ rightRows c.depth c.right

theorem rows_leave (depth : Nat) (right : List (List Tree)) :
    ((leave depth right).elim [] rows) = rightRows depth right := by
  fun_induction leave depth right with
  | case1 => rfl
  | case2 depth right ih => rw [ih, rightRows, List.flatMap_nil, List.nil_append]
  | case3 depth t ts right =>
    rw [Option.elim_some, rows, rightRows, rightRows, List.flatMap_cons, List.append_assoc]

/-- A step passes the node under the cursor and nothing else. -/
theorem rows_next (c : Cursor) : c.rows = ⟨c.depth, c.focus.info⟩ :: c.next.elim [] rows := by
  rw [rows, Tree.rows_eq, List.cons_append, next]
  congr 1
  cases c.focus.children with
  | nil => rw [rows_leave, List.flatMap_nil, List.nil_append]
  | cons t ts =>
    rw [Option.elim_some, rows, rightRows, Nat.add_sub_cancel, List.flatMap_cons,
      List.append_assoc]

end Cursor

namespace Tree

variable (source : List Char) (limit : Nat)

/-- What is wrong with a node at its depth. -/
def Row.fault? (row : Row) : Option Failure :=
  if limit < row.depth then some (tooDeep limit)
  else if row.info.isFault then some (faultAt source row.info)
  else none

theorem fault?_under (c : Cursor) :
    Row.fault? source limit ⟨c.depth, c.focus.info⟩ = faultUnder source limit c := rfl

theorem fault?_eq_none_iff (row : Row) :
    row.fault? source limit = none ↔ row.depth ≤ limit ∧ row.info.isFault = false := by
  unfold Row.fault?
  split_ifs with hdepth hfault
  · simp [Nat.not_le.2 hdepth]
  · simp [hfault]
  · simpa [hfault] using hdepth

/-- The first failure is that of the first node with something wrong. -/
theorem faultFrom_eq (c : Cursor) :
    faultFrom source limit c = c.rows.findSome? (Row.fault? source limit) := by
  fun_induction faultFrom source limit c with
  | case1 c failure h =>
    rw [Cursor.rows_next, List.findSome?_cons, fault?_under, h]
  | case2 c h hnext =>
    rw [Cursor.rows_next, List.findSome?_cons, fault?_under, h, hnext]
    rfl
  | case3 c h d hnext _ ih =>
    rw [Cursor.rows_next, List.findSome?_cons, fault?_under, h, hnext, ih]
    rfl

theorem check_eq (t : Tree) :
    t.check source limit =
      ((t.rows 0).findSome? (Row.fault? source limit)).elim (.ok t) .error := by
  rw [check, faultFrom_eq, Cursor.rows, Cursor.top, Cursor.rightRows, List.append_nil]
  cases (t.rows 0).findSome? (Row.fault? source limit) <;> rfl

theorem eq_of_check {t u : Tree} (h : t.check source limit = .ok u) : u = t := by
  rw [check] at h
  split at h
  · contradiction
  · exact (Except.ok.inj h).symm

/-- The trees that pass: no node is too deep, and none is a fault. -/
theorem check_eq_ok_iff (t : Tree) :
    t.check source limit = .ok t ↔
      ∀ row ∈ t.rows 0, row.depth ≤ limit ∧ row.info.isFault = false := by
  have hrows : (∀ row ∈ t.rows 0, row.depth ≤ limit ∧ row.info.isFault = false) ↔
      (t.rows 0).findSome? (Row.fault? source limit) = none := by
    simp only [List.findSome?_eq_none_iff, fault?_eq_none_iff]
  rw [check_eq, hrows]
  cases (t.rows 0).findSome? (Row.fault? source limit) <;> simp

end Tree

end ScriptTree
