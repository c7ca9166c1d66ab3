import ScriptTree.Text.Blank

/-! How much the command logs. -/
namespace ScriptTree

/-- The log filter for a count of verbosity flags and the filter in the environment, which counts only
without flags and if it is not blank. -/
def logDirective (verbose : Nat) (env : Option String) : String :=
  match verbose with
  | 0 => (env.filter fun s => !(s.toList.all Text.isBlank)).getD "warn"
  | 1 => "debug"
  | _ => "trace"

end ScriptTree
