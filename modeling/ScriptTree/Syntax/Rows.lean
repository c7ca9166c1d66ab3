import ScriptTree.Json.Basic
import ScriptTree.Syntax.Tree

/-! Parse trees as parsers write them in JSON: an array of rows, each the depth of a node, its kind, the
name of that, its label or null, its flags and its range. -/
namespace ScriptTree.Tree

def label? : Json → Option (Option String)
  | .null => some none
  | j => j.str?.map some

/-- A row. The flags are 1 for named, 2 for extra, 4 for missing and 8 for error nodes. -/
def Row.ofJson? : Json → Option Row
  | .arr [depth, kind, kindName, label, flags, start, stop] => do
    let flags ← flags.nat?
    some
      { depth := ← depth.nat?
        info :=
          { kind := ← kind.uint16?
            kindName := ← kindName.str?
            field := ← label? label
            named := flags.testBit 0
            extra := flags.testBit 1
            missing := flags.testBit 2
            error := flags.testBit 3
            start := ← start.nat?
            stop := ← stop.nat? } }
  | _ => none

def ofJson? (j : Json) : Option Tree := do
  ofRows? (← (← j.arr?).mapM Row.ofJson?)

end ScriptTree.Tree
