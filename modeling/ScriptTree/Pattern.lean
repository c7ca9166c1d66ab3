import ScriptTree.Text.Blank

/-! Regular patterns over characters: their language, and a search by partial derivatives. -/
namespace ScriptTree

/-- A set of characters that a pattern can ask for. -/
inductive CharClass where
  /-- White space. -/
  | blank
  /-- ASCII letters, digits and the underscore. -/
  | word
  /-- One of the listed characters. -/
  | oneOf (cs : List Char)
  deriving DecidableEq, Repr

def CharClass.mem : CharClass → Char → Bool
  | .blank, c => Text.isBlank c
  | .word, c => c.isAlphanum || c == '_'
  | .oneOf cs, c => cs.contains c

/-- A regular pattern. -/
inductive Pattern where
  | empty
  | char (k : CharClass)
  | seq (p q : Pattern)
  | alt (p q : Pattern)
  | star (p : Pattern)
  deriving DecidableEq, Repr

namespace Pattern

/-- The texts that a pattern describes. -/
inductive Matches : Pattern → List Char → Prop where
  | empty : Matches .empty []
  | char {k : CharClass} {c : Char} : k.mem c = true → Matches (.char k) [c]
  | seq {p q : Pattern} {s t : List Char} : Matches p s → Matches q t → Matches (.seq p q) (s ++ t)
  | altLeft {p q : Pattern} {s : List Char} : Matches p s → Matches (.alt p q) s
  | altRight {p q : Pattern} {s : List Char} : Matches q s → Matches (.alt p q) s
  | starNil {p : Pattern} : Matches (.star p) []
  | starCons {p : Pattern} {s t : List Char} :
      Matches p s → Matches (.star p) t → Matches (.star p) (s ++ t)

def plus (p : Pattern) : Pattern := .seq p (.star p)

def opt (p : Pattern) : Pattern := .alt .empty p

def literal : List Char → Pattern
  | [] => .empty
  | c :: s => .seq (.char (.oneOf [c])) (literal s)

def all : List Pattern → Pattern
  | [] => .empty
  | [p] => p
  | p :: ps => .seq p (all ps)

def nullable : Pattern → Bool
  | .empty => true
  | .char _ => false
  | .seq p q => p.nullable && q.nullable
  | .alt p q => p.nullable || q.nullable
  | .star _ => true

/-- The sequence of two patterns, without an empty first part. -/
def append : Pattern → Pattern → Pattern
  | .empty, q => q
  | p, q => .seq p q

/-- The patterns of what may follow the character `c` in a text of the pattern. -/
def after (c : Char) : Pattern → List Pattern
  | .empty => []
  | .char k => if k.mem c then [.empty] else []
  | .seq p q =>
    (p.after c).map (append · q) ++ (if p.nullable then q.after c else [])
  | .alt p q => p.after c ++ q.after c
  | .star p => (p.after c).map (append · (.star p))

/-- The search for a pattern: `live` are the patterns of what is left of the matches begun so far. -/
def searchFrom (p : Pattern) : List Pattern → List Char → Bool
  | live, [] => live.any nullable
  | live, c :: s => live.any nullable || searchFrom p (p :: (live.flatMap (after c)).eraseDups) s

/-- Whether some part of the text is described by the pattern. -/
def occursIn (p : Pattern) (s : List Char) : Bool :=
  searchFrom p [p] s

end Pattern

end ScriptTree
