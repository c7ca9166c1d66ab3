import ScriptTree.Syntax.Kind

/-! What a grammar says of its node kinds. It is decided by the name of a kind and whether the kind is
named, never by its number. -/
namespace ScriptTree

/-- A node kind of a grammar. The kinds that are not named are the tokens of the language. -/
structure Kind where
  name : Option String
  named : Bool
  deriving DecidableEq, Repr

def Kind.nodes (names : List String) : List Kind :=
  names.map fun name => ⟨some name, true⟩

def Kind.tokens (names : List String) : List Kind :=
  names.map fun name => ⟨some name, false⟩

namespace Grammar

def categoryOf (name : String) : Category :=
  if ["identifier", "property_identifier", "type_identifier", "shorthand_property_identifier",
      "shorthand_property_identifier_pattern", "private_property_identifier",
      "statement_identifier"].contains name then .identifier
  else if ["string", "number"].contains name then .literal
  else if name = "member_expression" then .propertyAccess
  else if name = "call_expression" then .call
  else if name = "variable_declarator" then .variableDeclaration
  else if ["function_declaration", "generator_function_declaration", "function_signature",
      "method_definition"].contains name then .functionLike
  else if name = "interface_declaration" then .interface
  else if name = "property_signature" then .propertySignature
  else .other

/-- Named kinds that count as one token, whatever is below them. -/
def atomicNames : List String := ["string", "regex", "predefined_type"]

/-- Tokens that modify the node they stand in. -/
def modifierNames : List String :=
  ["static", "readonly", "async", "abstract", "declare", "accessor", "export", "default", "const"]

/-- Named kinds that such a token belongs to instead of modifying it. -/
def keywordOwnerNames : List String :=
  ["class_static_block", "switch_default", "as_expression", "readonly_type"]

/-- Named kinds around a single modifier. -/
def wrapperNames : List String := ["accessibility_modifier", "override_modifier"]

/-- Whether a kind stands for the type that it wraps. -/
def isTypeWrapperName (name : String) : Bool :=
  "_annotation".toList.isSuffixOf name.toList

/-- What is known of one kind. -/
structure Entry where
  name : Option String
  category : Category := .other
  atomic : Bool := false
  typeWrapper : Bool := false
  modifier : Bool := false
  wrapper : Bool := false
  keywordOwner : Bool := false
  deriving DecidableEq, Repr

/-- What is known of a kind by its name. -/
def entryOf (kind : Kind) : Entry :=
  match kind.name with
  | none => { name := none }
  | some name =>
    if kind.named then
      { name := some name
        category := categoryOf name
        atomic := atomicNames.contains name
        typeWrapper := isTypeWrapperName name
        wrapper := wrapperNames.contains name
        keywordOwner := keywordOwnerNames.contains name }
    else { name := some name, modifier := modifierNames.contains name }

end Grammar

/-- A grammar: what is known of its kinds, by number. -/
structure Grammar where
  entries : Array Grammar.Entry
  deriving Repr

namespace Grammar

/-- The grammar of the given kinds; numbers have sixteen bits. -/
def ofKinds (kinds : List Kind) : Grammar :=
  ⟨((kinds.take UInt16.size).map entryOf).toArray⟩

/-- What is known of the kind of a number. -/
def entry? (g : Grammar) (id : KindId) : Option Entry :=
  g.entries[id.toNat]?

/-- The name of a kind. The two last numbers are reserved for errors. -/
def kindName (g : Grammar) (id : KindId) : String :=
  if id = 65535 then "ERROR"
  else if id = 65534 then "_ERROR"
  else ((g.entry? id).bind (·.name)).getD "unknown"

def category (g : Grammar) (id : KindId) : Category :=
  ((g.entry? id).map (·.category)).getD .other

/-- Whether nodes of a kind are single tokens. -/
def isAtomic (g : Grammar) (id : KindId) : Bool := (g.entry? id).any (·.atomic)

/-- Whether nodes of a kind stand for the type they wrap. -/
def isTypeWrapper (g : Grammar) (id : KindId) : Bool := (g.entry? id).any (·.typeWrapper)

def isModifier (g : Grammar) (id : KindId) : Bool := (g.entry? id).any (·.modifier)

/-- Whether nodes of a kind wrap a modifier. -/
def isWrapper (g : Grammar) (id : KindId) : Bool := (g.entry? id).any (·.wrapper)

/-- Whether nodes of a kind own their keywords. -/
def isKeywordOwner (g : Grammar) (id : KindId) : Bool := (g.entry? id).any (·.keywordOwner)

/-- The names and categories of a grammar's kinds. -/
def table (g : Grammar) : KindTable := ⟨g.kindName, g.category⟩

end Grammar

end ScriptTree
