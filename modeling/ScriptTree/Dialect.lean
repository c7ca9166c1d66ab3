import ScriptTree.Named

/-! The two dialects that a source text can be written in. -/
namespace ScriptTree

/-- The language with type syntax, or the one without. -/
inductive Dialect where
  | typed
  | plain
  deriving DecidableEq, Repr

namespace Dialect

/-- The name of the dialect in reports and settings. -/
def name : Dialect → String
  | .typed => "typescript"
  | .plain => "javascript"

instance : Named Dialect := ⟨[.typed, .plain], name⟩

/-- The dialect to try when this one fails. -/
def other : Dialect → Dialect
  | .typed => .plain
  | .plain => .typed

structure Unknown where
  text : String
  deriving DecidableEq, Repr

def Unknown.message (e : Unknown) : String :=
  "unknown dialect `" ++ e.text ++ "` (expected `typescript` or `javascript`)"

/-- The dialect of a full or a short name, in any ASCII letter case. -/
def ofText (s : String) : Except Unknown Dialect :=
  let lower := String.ofList (s.toList.map Char.toLower)
  if lower = "typescript" ∨ lower = "ts" then .ok .typed
  else if lower = "javascript" ∨ lower = "js" then .ok .plain
  else .error ⟨s⟩

end Dialect

end ScriptTree
