/-! Types with finitely many values, each known by one name. -/
namespace ScriptTree

/-- A list of all values of a type and a name for each. -/
class Named (α : Type) where
  all : List α
  name : α → String

/-- The value of the given name. -/
def Named.ofName? {α : Type} [Named α] (s : String) : Option α :=
  (Named.all : List α).find? fun a => Named.name a == s

end ScriptTree
