import ScriptTree.Dialect
import ScriptTree.Pattern

/-! Guessing the dialect of a text from the surface forms that only the typed dialect has. -/
namespace ScriptTree

/-- A surface form that gives the typed dialect away. -/
inductive Trigger where
  | annotatedType
  | interface
  | typeAlias
  | enumeration
  | generic
  | typeAssertion
  | accessModifier
  | readonly
  deriving DecidableEq, Repr

namespace Trigger

/-- All triggers, the ones looked for first in front. -/
def all : List Trigger :=
  [.annotatedType, .interface, .typeAlias, .enumeration, .generic, .typeAssertion, .accessModifier,
   .readonly]

private def blanks : Pattern := .star (.char .blank)
private def blanks1 : Pattern := .plus (.char .blank)
private def word : Pattern := .plus (.char .word)
private def keyword (s : String) : Pattern := .literal s.toList

def pattern : Trigger → Pattern
  | .annotatedType => .all
      [keyword ":", blanks, word, .opt (keyword "[]"),
       .star (.all [blanks, keyword "|", blanks, word]), blanks, .char (.oneOf ['=', ';', ',', ')'])]
  | .interface => .all [keyword "interface", blanks1, word]
  | .typeAlias => .all [keyword "type", blanks1, word, blanks, keyword "="]
  | .enumeration => .all [keyword "enum", blanks1, word]
  | .generic => .all [keyword "<", word, keyword ">"]
  | .typeAssertion => .all [keyword "as", blanks1, word]
  | .accessModifier => .all
      [.alt (keyword "public") (.alt (keyword "private") (keyword "protected")), blanks1]
  | .readonly => .all [keyword "readonly", blanks1]

end Trigger

/-- The verdict on a text and the first trigger found in it. -/
structure Detection where
  dialect : Dialect
  trigger : Option Trigger
  deriving DecidableEq, Repr

/-- The verdict is typed when some trigger occurs in the text. -/
def detect (source : List Char) : Detection :=
  match Trigger.all.find? fun t => t.pattern.occursIn source with
  | some t => ⟨.typed, some t⟩
  | none => ⟨.plain, none⟩

/-- The dialect that a text seems to be written in. -/
def classify (source : List Char) : Dialect :=
  (detect source).dialect

end ScriptTree
