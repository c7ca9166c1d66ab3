/-! Kinds of syntax nodes, the categories they fall in, and the roles of a node's parts. -/
namespace ScriptTree

/-- The number of a node kind in its grammar. -/
abbrev KindId := UInt16

/-- The sorts of nodes that are described by more than their kind and position. -/
inductive Category where
  | identifier
  | literal
  | propertyAccess
  | call
  | variableDeclaration
  | functionLike
  | interface
  | propertySignature
  | other
  deriving DecidableEq, Repr, Inhabited

/-- The part that a node plays for the node it belongs to. -/
inductive Role where
  | name
  | type
  | initializer
  | expression
  | arguments
  | parameters
  | returnType
  | body
  | members
  deriving DecidableEq, Repr

def Role.all : List Role :=
  [.name, .type, .initializer, .expression, .arguments, .parameters, .returnType, .body, .members]

/-- The names and categories of kinds. -/
structure KindTable where
  kindName : KindId → String
  category : KindId → Category

/-- A table given by rows: the first row of a kind counts, and a kind without one is unknown. -/
def KindTable.ofRows (rows : List (KindId × String × Category)) : KindTable where
  kindName id := ((rows.find? (·.1 == id)).map (·.2.1)).getD "unknown"
  category id := ((rows.find? (·.1 == id)).map (·.2.2)).getD .other

end ScriptTree
