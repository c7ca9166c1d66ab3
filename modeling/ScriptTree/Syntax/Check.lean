import ScriptTree.Syntax.Cursor
import ScriptTree.Syntax.Failure
import ScriptTree.Text.Blank
import ScriptTree.Text.Bytes

/-! The check of a parse tree: no faults and no nesting beyond a limit. The tree is walked by a cursor,
so that the depth of the tree does not matter. -/
namespace ScriptTree.Tree

/-- The part of a text after its last line break. -/
def lastLine (s : List Char) : List Char :=
  (s.reverse.takeWhile (· ≠ '\n')).reverse

/-- The part of the source that is before a byte; the whole of it for a byte beyond the end. -/
def before? (source : List Char) (byte : Nat) : Option (List Char) :=
  Text.takeBytes? (min byte (Text.byteLength source)) source

/-- The line breaks that begin before a byte, which may lie inside a character. -/
def lineBreaksBefore : Nat → List Char → Nat
  | 0, _ => 0
  | _ + 1, [] => 0
  | n + 1, c :: s =>
    (if c = '\n' then 1 else 0) + lineBreaksBefore (n + 1 - c.utf8Size) s

/-- What is said of a node that should not be there: its source, cut after twenty characters. -/
def faultDetail (source : List Char) (info : NodeInfo) : String :=
  if info.missing then "missing `" ++ info.kindName ++ "`"
  else
    match Text.trim ((Text.slice source info.start info.stop).take 20) with
    | [] => "unexpected end of input"
    | snippet => "unexpected `" ++ String.ofList snippet ++ "`"

def faultAt (source : List Char) (info : NodeInfo) : Failure :=
  let column := match before? source info.start with
    | none => 0
    | some s => (lastLine s).length
  .fault (lineBreaksBefore info.start source + 1) (column + 1) (faultDetail source info)

def tooDeep (limit : Nat) : Failure :=
  .engine ("nesting too deep (more than " ++ toString limit ++ " levels)")

/-- What is wrong with the node under a cursor. -/
def faultUnder (source : List Char) (limit : Nat) (c : Cursor) : Option Failure :=
  if limit < c.depth then some (tooDeep limit)
  else if c.focus.info.isFault then some (faultAt source c.focus.info)
  else none

/-- The first failure at or after a cursor. -/
def faultFrom (source : List Char) (limit : Nat) (c : Cursor) : Option Failure :=
  match faultUnder source limit c with
  | some failure => some failure
  | none =>
    match h : c.next with
    | none => none
    | some d =>
      have := Cursor.remaining_next h
      faultFrom source limit d
termination_by c.remaining

/-- A tree, unless it has a fault or nodes deeper than the limit. The first such node in preorder
decides, and its depth counts before its fault. -/
def check (source : List Char) (limit : Nat) (t : Tree) : Except Failure Tree :=
  match faultFrom source limit (.top t) with
  | some failure => .error failure
  | none => .ok t

end ScriptTree.Tree
