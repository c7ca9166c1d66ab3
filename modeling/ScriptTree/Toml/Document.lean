import ScriptTree.Toml.Statement

/-! Whole TOML documents. -/
namespace ScriptTree.Toml

/-- Statements by table: the pairs before the first header, and each header with the pairs under it. -/
def sections : List Statement → List (Path × Value) × List (Statement × List (Path × Value))
  | [] => ([], [])
  | .pair path value :: statements =>
    let (pairs, rest) := sections statements
    ((path, value) :: pairs, rest)
  | header :: statements =>
    let (pairs, rest) := sections statements
    ([], (header, pairs) :: rest)

/-- Adds the table of a header with its pairs. -/
def addSection (entries : Entries) : Statement × List (Path × Value) → Option Entries
  | (.header path, pairs) => changeAt path.last (defineTable pairs) path.tables entries
  | (.rowHeader path, pairs) => changeAt path.last (defineRow pairs) path.tables entries
  | (.pair _ _, _) => none

def ofStatements? (statements : List Statement) : Option Entries := do
  let (pairs, rest) := sections statements
  rest.foldlM addSection (← addAll [] pairs)

/-- The top table of a document. A byte order mark may stand in front. -/
def parse? (s : List Char) : Option Entries := do
  let text := match s with
    | '\uFEFF' :: t => t
    | t => t
  let ts ← tokens text
  ofStatements? (← statementsFrom .start ts)

end ScriptTree.Toml
