import ScriptTree.Syntax.Kind

/-! The records in which syntax trees of both dialects are described alike. -/
namespace ScriptTree

/-- A modifier of a node: the kind of its token. -/
structure Modifier where
  kind : String
  kindNumber : KindId
  deriving DecidableEq, Repr

/-- The name of a node: the text of an identifier, or a record that has a name itself. -/
inductive Record.Name (α : Type) where
  | text (s : String)
  | node (r : α)
  deriving DecidableEq, Repr

/-- The description of a node. What does not apply to its kind is absent. -/
structure Record where
  kind : String
  kindNumber : KindId
  pos : Option Nat := none
  stop : Option Nat := none
  text : Option String := none
  name : Option (Record.Name Record) := none
  value : Option String := none
  expression : Option Record := none
  arguments : Option (List Record) := none
  type : Option Record := none
  returnType : Option Record := none
  initializer : Option Record := none
  parameters : Option (List Record) := none
  body : Option Record := none
  members : Option (List Record) := none
  modifiers : Option (List Modifier) := none
  children : Option (List Record) := none

namespace Record

/-- The text of the name, looked up through names that are records. -/
def nameText : Record → Option String
  | { name := none, .. } => none
  | { name := some (.text s), .. } => some s
  | { name := some (.node r), .. } => r.nameText

mutual

def count : Record → Nat
  | { children := none, .. } => 1
  | { children := some rs, .. } => 1 + countList rs

/-- The number of records of several trees along the children. -/
def countList : List Record → Nat
  | [] => 0
  | r :: rs => r.count + countList rs

end

end Record

end ScriptTree
