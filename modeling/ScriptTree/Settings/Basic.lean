import ScriptTree.Json.Printer
import ScriptTree.Pipeline

/-! Settings in layers: what a later layer sets wins, what it leaves out stays. -/
namespace ScriptTree

inductive DialectChoice where
  /-- Left to the classifier. -/
  | auto
  | fixed (dialect : Dialect)
  deriving DecidableEq, Repr

namespace DialectChoice

def name : DialectChoice → String
  | .auto => "auto"
  | .fixed dialect => dialect.name

instance : Named DialectChoice := ⟨[.auto, .fixed .typed, .fixed .plain], name⟩

/-- The dialect that a choice prescribes. -/
def forced? : DialectChoice → Option Dialect
  | .auto => none
  | .fixed dialect => some dialect

end DialectChoice

/-- One layer of settings; what is absent is not set. -/
structure Settings where
  strategy : Option Strategy := none
  dialect : Option DialectChoice := none
  plainTree : Option Shape := none
  offsets : Option OffsetUnit := none
  pretty : Option Bool := none
  deriving DecidableEq, Repr

namespace Settings

/-- A layer with another one over it. -/
def merge (below above : Settings) : Settings where
  strategy := above.strategy.or below.strategy
  dialect := above.dialect.or below.dialect
  plainTree := above.plainTree.or below.plainTree
  offsets := above.offsets.or below.offsets
  pretty := above.pretty.or below.pretty

/-- The options for a run, with defaults for what is not set. -/
def options (s : Settings) : Options where
  strategy := s.strategy.getD .heuristic
  dialect := s.dialect.bind DialectChoice.forced?
  plainTree := s.plainTree.getD .native
  offsets := s.offsets.getD .utf16

def style (s : Settings) : Json.Style :=
  if s.pretty.getD false then .pretty else .compact

end Settings

end ScriptTree
