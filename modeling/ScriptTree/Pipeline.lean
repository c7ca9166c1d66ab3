import ScriptTree.Dialect.Sniff
import ScriptTree.Engine

/-! From a source text to one report: classify it, parse it, and retry with the other dialect if that is
wanted. -/
namespace ScriptTree

/-- How the dialect of a source is chosen. -/
inductive Strategy where
  /-- By the classifier alone. -/
  | heuristic
  /-- By the classifier, then the other dialect if that fails. -/
  | fallback
  deriving DecidableEq, Repr, Inhabited

def Strategy.name : Strategy → String
  | .heuristic => "heuristic"
  | .fallback => "fallback"

instance : Named Strategy := ⟨[.heuristic, .fallback], Strategy.name⟩

/-- The choices for a run. The typed dialect is always normalized. -/
structure Options where
  strategy : Strategy := .heuristic
  /-- The dialect to parse as, instead of classifying. -/
  dialect : Option Dialect := none
  /-- The shape of trees of the plain dialect. -/
  plainTree : Shape := .native
  offsets : OffsetUnit := .utf16
  deriving DecidableEq, Repr

/-- Why a run has no tree. -/
inductive RunError where
  | parse (failure : Failure)
  | noEngine (dialect : Dialect)
  deriving DecidableEq, Repr

def RunError.message : RunError → String
  | .parse failure => failure.message
  | .noEngine dialect => "no engine available for " ++ dialect.name

/-- The outcome of a run. -/
inductive Report where
  | parsed (parser : Dialect) (ast : Ast)
  | failed (error : String)

namespace Report

def isFailed : Report → Bool
  | .parsed .. => false
  | .failed _ => true

def toJson : Report → Json
  | .parsed parser ast => .obj [("parser", .str parser.name), ("ast", ast.toJson)]
  | .failed error => .obj [("error", .str error)]

end Report

/-- A classifier and at most one engine for each dialect. -/
structure Pipeline where
  options : Options
  classifier : String → Dialect
  typed : Option Engine
  plain : Option Engine

/-- One try to parse a source: the dialect, what was asked of its engine, and the outcome. -/
structure Attempt where
  dialect : Dialect
  request : Request
  outcome : Except RunError Ast

/-- A way to call engines, which may keep a record of the calls or the like. -/
abbrev Caller (m : Type → Type) := Engine → String → Request → m (Except Failure Ast)

/-- Calls an engine and does nothing else. -/
def Engine.call : Caller Id := Engine.parse

namespace Pipeline

def classifierFor (options : Options) : String → Dialect :=
  match options.dialect with
  | some dialect => fun _ => dialect
  | none => fun source => classify source.toList

/-- The pipeline of the options over the given engines. -/
def new (options : Options) (typed plain : Option Engine) : Pipeline :=
  ⟨options, classifierFor options, typed, plain⟩

/-- Installs an engine in the place of the one for its dialect. -/
def withEngine (p : Pipeline) (engine : Engine) : Pipeline :=
  match engine.dialect with
  | .typed => { p with typed := some engine }
  | .plain => { p with plain := some engine }

/-- Installs a classifier in the place of the one before. -/
def withClassifier (p : Pipeline) (classifier : String → Dialect) : Pipeline :=
  { p with classifier := classifier }

def engine? (p : Pipeline) : Dialect → Option Engine
  | .typed => p.typed
  | .plain => p.plain

/-- What is asked of the engine for a dialect. -/
def request (p : Pipeline) : Dialect → Request
  | .typed => ⟨.normalized, p.options.offsets⟩
  | .plain => ⟨p.options.plainTree, p.options.offsets⟩

section By

variable {m : Type → Type} [Monad m] (call : Caller m) (p : Pipeline) (source : String)

/-- A try with one dialect. -/
def attemptBy (dialect : Dialect) : m Attempt := do
  let request := p.request dialect
  match p.engine? dialect with
  | none => return ⟨dialect, request, .error (.noEngine dialect)⟩
  | some engine => return ⟨dialect, request, (← call engine source request).mapError .parse⟩

/-- The tries of a run: one with the classified dialect and, after a failure under the fallback
strategy, one with the other. -/
def attemptsBy : m (Attempt × Option Attempt) := do
  let first ← p.attemptBy call source (p.classifier source)
  match first.outcome, p.options.strategy with
  | .error _, .fallback => return (first, some (← p.attemptBy call source first.dialect.other))
  | _, _ => return (first, none)

/-- The first tree among the tries, with its dialect; failing that the first error. -/
def parseBy : m (Except RunError (Dialect × Ast)) := do
  match ← p.attemptsBy call source with
  | ({ dialect, outcome := .ok ast, .. }, _) => return .ok (dialect, ast)
  | ({ outcome := .error _, .. }, some { dialect, outcome := .ok ast, .. }) => return .ok (dialect, ast)
  | ({ outcome := .error error, .. }, _) => return .error error

def runBy : m Report := do
  match ← p.parseBy call source with
  | .ok (dialect, ast) => return .parsed dialect ast
  | .error error => return .failed error.message

end By

def attempt (p : Pipeline) (source : String) (dialect : Dialect) : Attempt :=
  Id.run (p.attemptBy Engine.call source dialect)

def attempts (p : Pipeline) (source : String) : Attempt × Option Attempt :=
  Id.run (p.attemptsBy Engine.call source)

def parse (p : Pipeline) (source : String) : Except RunError (Dialect × Ast) :=
  Id.run (p.parseBy Engine.call source)

def run (p : Pipeline) (source : String) : Report :=
  Id.run (p.runBy Engine.call source)

end Pipeline

end ScriptTree
