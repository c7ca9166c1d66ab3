/-! Why a source text has no syntax tree. -/
namespace ScriptTree

/-- The failure of a parse. -/
inductive Failure where
  /-- A place in the source that the grammar does not allow. Lines and columns count from one. -/
  | fault (line column : Nat) (detail : String)
  /-- The engine itself gave up. -/
  | engine (detail : String)
  deriving DecidableEq, Repr

def Failure.message : Failure → String
  | .fault line column detail =>
    "syntax error at line " ++ toString line ++ ", column " ++ toString column ++ ": " ++ detail
  | .engine detail => "parse error: " ++ detail

end ScriptTree
