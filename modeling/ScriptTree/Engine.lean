import ScriptTree.Dialect
import ScriptTree.Grammar.Plain
import ScriptTree.Grammar.Typed
import ScriptTree.Record.Json
import ScriptTree.Record.Normalize
import ScriptTree.Syntax.Check
import ScriptTree.Syntax.Native
import ScriptTree.Syntax.Reading

/-! Engines: from a source text and a request to a described syntax tree. -/
namespace ScriptTree

inductive Shape where
  | native
  | normalized
  deriving DecidableEq, Repr, Inhabited

def Shape.name : Shape → String
  | .native => "native"
  | .normalized => "normalized"

instance : Named Shape := ⟨[.native, .normalized], Shape.name⟩

/-- What is asked of an engine. -/
structure Request where
  shape : Shape := .native
  offsets : OffsetUnit := .utf16
  deriving DecidableEq, Repr

inductive Ast where
  | normalized (r : Record)
  | native (j : Json)

def Ast.toJson : Ast → Json
  | .normalized r => r.toJson
  | .native j => j

/-- An engine for one dialect. -/
structure Engine where
  dialect : Dialect
  parse : String → Request → Except Failure Ast

def Dialect.grammar : Dialect → Grammar
  | .typed => .typed
  | .plain => .plain

/-- A parser of the trees of a grammar. -/
structure TreeParser where
  grammar : Grammar
  /-- The tree of a source, if there is one. The parser may turn down the grammar instead and say why. -/
  tree? : String → Except String (Option Tree)

/-- The record of a tree of the source. -/
def Tree.normalize (g : Grammar) (source : List Char) (unit : OffsetUnit) (t : Tree) : Record :=
  .ofNode g.table (.ofText source unit) (t.toSyntax g source)

/-- The native form of a tree of the source. -/
def Tree.native (g : Grammar) (source : List Char) (unit : OffsetUnit) (t : Tree) : Json :=
  Native.ofTree g source (.ofText source unit) t

/-- The description of a tree in the shape asked for. -/
def Tree.describe (g : Grammar) (source : List Char) (request : Request) (t : Tree) : Ast :=
  match request.shape with
  | .normalized => .normalized (t.normalize g source request.offsets)
  | .native => .native (t.native g source request.offsets)

namespace Engine

/-- The deepest nesting of a tree that engines describe. -/
def maxDepth : Nat := 1000

/-- The engine of a dialect over a parser, whose trees it checks and describes. -/
def ofTrees (dialect : Dialect) (parser : TreeParser) : Engine where
  dialect := dialect
  parse source request := do
    let t ← match parser.tree? source with
      | .ok (some t) => t.check source.toList maxDepth
      | .ok none => .error (.engine "failed to parse")
      | .error message => .error (.engine message)
    return t.describe parser.grammar source.toList request

/-- The engine of a dialect over a parser of its own grammar. -/
def ofParser (dialect : Dialect) (parser : String → Option Tree) : Engine :=
  ofTrees dialect ⟨dialect.grammar, fun source => .ok (parser source)⟩

end Engine

end ScriptTree
