import ScriptTree.Json.Token

/-! Reading JSON values: a machine over tokens with a stack of the arrays and objects still open. -/
namespace ScriptTree.Json

/-- An open array or object with what it holds so far, last part first. -/
inductive Frame where
  | array (items : List Json)
  /-- The value of `key` is being read. -/
  | object (members : List (String × Json)) (key : String)
  deriving Repr

/-- What the reader has to see next. -/
inductive State where
  /-- A value. -/
  | value (stack : List Frame)
  /-- The first element of an array, or its end. -/
  | firstItem (stack : List Frame)
  /-- The first key of an object, or its end. -/
  | firstKey (stack : List Frame)
  /-- A further key of an object. -/
  | key (members : List (String × Json)) (stack : List Frame)
  /-- The colon after a key. -/
  | colon (members : List (String × Json)) (key : String) (stack : List Frame)
  /-- What may follow the complete value `v`. -/
  | done (v : Json) (stack : List Frame)
  deriving Repr

/-- The token where a value has to come. -/
def beginValue (stack : List Frame) : Token → Option State
  | .scalar s => some (.done (.scalar s) stack)
  | .openArray => some (.firstItem stack)
  | .openObject => some (.firstKey stack)
  | _ => none

def endValue (v : Json) : List Frame → Token → Option State
  | .array items :: stack, .comma => some (.value (.array (v :: items) :: stack))
  | .array items :: stack, .closeArray => some (.done (.arr (v :: items).reverse) stack)
  | .object members key :: stack, .comma => some (.key ((key, v) :: members) stack)
  | .object members key :: stack, .closeObject =>
    some (.done (.obj ((key, v) :: members).reverse) stack)
  | _, _ => none

def step : State → Token → Option State
  | .value stack, t => beginValue stack t
  | .firstItem stack, .closeArray => some (.done (.arr []) stack)
  | .firstItem stack, t => beginValue (.array [] :: stack) t
  | .firstKey stack, .closeObject => some (.done (.obj []) stack)
  | .firstKey stack, .scalar (.str key) => some (.colon [] key stack)
  | .key members stack, .scalar (.str key) => some (.colon members key stack)
  | .colon members key stack, .colon => some (.value (.object members key :: stack))
  | .done v stack, t => endValue v stack t
  | _, _ => none

def ofTokens? (ts : List Token) : Option Json :=
  match ts.foldlM step (.value []) with
  | some (.done v []) => some v
  | _ => none

def parse? (s : List Char) : Option Json :=
  (tokens s).bind ofTokens?

end ScriptTree.Json
