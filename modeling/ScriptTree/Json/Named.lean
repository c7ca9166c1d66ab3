import ScriptTree.Json.Basic
import ScriptTree.Named

/-! Named values in JSON. -/
namespace ScriptTree

/-- A named value is given by its name, or by an object with the name as its only key and null under
it. -/
def Named.ofJson? {α : Type} [Named α] : Json → Option α
  | .str s => Named.ofName? s
  | .obj [(key, .null)] => Named.ofName? key
  | _ => none

end ScriptTree
