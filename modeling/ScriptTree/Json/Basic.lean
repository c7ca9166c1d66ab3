/-! JSON values. -/
namespace ScriptTree

inductive Json.Scalar where
  | null
  | bool (b : Bool)
  /-- A number written without fraction and exponent, other than minus zero. -/
  | int (n : Int)
  /-- Any other number: `coefficient * 10 ^ exponent`. -/
  | decimal (coefficient exponent : Int)
  | str (s : String)
  deriving DecidableEq, Repr

/-- A JSON value. The members of an object keep their order. -/
inductive Json where
  | scalar (s : Json.Scalar)
  | arr (items : List Json)
  | obj (members : List (String × Json))
  deriving Repr

namespace Json

@[match_pattern] abbrev null : Json := .scalar .null
@[match_pattern] abbrev bool (b : Bool) : Json := .scalar (.bool b)
@[match_pattern] abbrev int (n : Int) : Json := .scalar (.int n)
@[match_pattern] abbrev str (s : String) : Json := .scalar (.str s)

def nat (n : Nat) : Json := .int n

def ofOption {α : Type} (f : α → Json) : Option α → Json
  | none => .null
  | some a => f a

/-- The members of an object; none for other values. -/
def members : Json → List (String × Json)
  | .obj ms => ms
  | _ => []

/-- The member of the given name, the last one if there are several. -/
def get? (j : Json) (key : String) : Option Json :=
  (j.members.reverse.find? (·.1 == key)).map (·.2)

def str? : Json → Option String
  | .str s => some s
  | _ => none

def nat? : Json → Option Nat
  | .int (.ofNat n) => some n
  | _ => none

/-- The value of a natural number below a bound. -/
def natBelow? (bound : Nat) (j : Json) : Option Nat :=
  j.nat?.filter (· < bound)

/-- The value of a natural number of sixteen bits. -/
def uint16? (j : Json) : Option UInt16 :=
  (j.natBelow? UInt16.size).map UInt16.ofNat

def arr? : Json → Option (List Json)
  | .arr items => some items
  | _ => none

end Json

end ScriptTree
