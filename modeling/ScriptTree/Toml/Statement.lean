import ScriptTree.Toml.Scalar
import ScriptTree.Toml.Table
import ScriptTree.Toml.Token

/-! The statements of a TOML document, read by a machine over tokens with a stack of the arrays and inline
tables still open. -/
namespace ScriptTree.Toml

/-- A statement: a key with its value, or the header of a table. -/
inductive Statement where
  | pair (path : Path) (value : Value)
  | header (path : Path)
  | rowHeader (path : Path)
  deriving Repr

/-- An open array or inline table with what it holds so far, last part first. -/
inductive Frame where
  | array (items : List Value)
  /-- The value of `path` is being read. -/
  | table (pairs : List (Path × Value)) (path : Path)
  deriving Repr

/-- What a key is read for. -/
inductive KeyFor where
  /-- A key with its value. -/
  | pair
  | header
  | rowHeader
  /-- A key of an inline table. -/
  | inline (pairs : List (Path × Value)) (root : Path) (stack : List Frame)
  deriving Repr

/-- What the reader has to see next. `root` is the key whose value is being read. -/
inductive State where
  /-- A statement. -/
  | start
  /-- The end of the line. -/
  | lineEnd
  /-- The second bracket of a repeated header, or the key of a single one. -/
  | headerStart
  /-- The second closing bracket of a repeated header. -/
  | headerEnd (path : Path)
  /-- A part of a key. -/
  | part (use : KeyFor) (parts : List String)
  /-- What may follow a part of a key; parts last first. -/
  | afterPart (use : KeyFor) (parts : List String) (last : String)
  /-- The first key of an inline table, or its end. -/
  | firstKey (root : Path) (stack : List Frame)
  /-- A value. -/
  | value (root : Path) (stack : List Frame)
  /-- More of a value without quotes. -/
  | bare (text : List Char) (root : Path) (stack : List Frame)
  /-- What may follow a date and a blank. -/
  | afterDate (date : List Char) (root : Path) (stack : List Frame)
  /-- What may follow the complete value `v`. -/
  | done (v : Value) (root : Path) (stack : List Frame)
  deriving Repr

/-- The number of arrays and inline tables in one another, and of parts of a key, has to stay below
this. -/
def nestingLimit : Nat := 80

/-- Whether a character may stand in a key without quotes. -/
def isKeyChar (c : Char) : Bool := c.isAlphanum || c == '_' || c == '-'

def keyPart? : Token → Option String
  | .bare s => if s.all isKeyChar then some (String.ofList s) else none
  | .line s => some s
  | _ => none

/-- The dotted key of its parts, last first. -/
def pathOf? (parts : List String) (last : String) : Option Path :=
  if parts.length + 1 < nestingLimit then some ⟨parts.reverse, last⟩ else none

/-- A state, and the statement completed on the way to it. -/
abbrev Step := State × Option Statement

/-- The token where a part of a key has to come. -/
def beginPart (use : KeyFor) (parts : List String) : Token → Option Step
  | .blank _ => some (.part use parts, none)
  | t => (keyPart? t).map fun last => (.afterPart use parts last, none)

/-- The token behind a part of a key. -/
def endPart (use : KeyFor) (parts : List String) (last : String) : Token → Option Step
  | .blank _ => some (.afterPart use parts last, none)
  | .dot => some (.part use (last :: parts), none)
  | t => do
    let path ← pathOf? parts last
    match use, t with
    | .pair, .equals => some (.value path [], none)
    | .header, .closeBracket => some (.lineEnd, some (.header path))
    | .rowHeader, .closeBracket => some (.headerEnd path, none)
    | .inline pairs root stack, .equals => some (.value root (.table pairs path :: stack), none)
    | _, _ => none

/-- The stack with one more frame, unless that is too many. -/
def push? (frame : Frame) (stack : List Frame) : Option (List Frame) :=
  if stack.length + 1 < nestingLimit then some (frame :: stack) else none

/-- Whether the innermost open frame is an array. -/
def inArray : List Frame → Bool
  | .array _ :: _ => true
  | _ => false

/-- The token where a value has to come. Within an array it may also end. -/
def beginValue (root : Path) (stack : List Frame) : Token → Option Step
  | .blank _ => some (.value root stack, none)
  | .newline => if inArray stack then some (.value root stack, none) else none
  | .comment => if inArray stack then some (.value root stack, none) else none
  | .bare s => some (.bare s root stack, none)
  | .dot => some (.bare ['.'] root stack, none)
  | .line s => some (.done (.str s) root stack, none)
  | .text s => some (.done (.str s) root stack, none)
  | .openBracket => (push? (.array []) stack).map fun stack => (.value root stack, none)
  | .openBrace =>
    if stack.length + 1 < nestingLimit then some (.firstKey root stack, none) else none
  | .closeBracket =>
    match stack with
    | .array items :: stack => some (.done (.array items.reverse) root stack, none)
    | _ => none
  | _ => none

def endValue (v : Value) (root : Path) : List Frame → Token → Option Step
  | stack, .blank _ => some (.done v root stack, none)
  | [], .comment => some (.lineEnd, some (.pair root v))
  | [], .newline => some (.start, some (.pair root v))
  | .array items :: stack, .comment => some (.done v root (.array items :: stack), none)
  | .array items :: stack, .newline => some (.done v root (.array items :: stack), none)
  | .array items :: stack, .comma => some (.value root (.array (v :: items) :: stack), none)
  | .array items :: stack, .closeBracket =>
    some (.done (.array (v :: items).reverse) root stack, none)
  | .table pairs path :: stack, .comma =>
    some (.part (.inline ((path, v) :: pairs) root stack) [], none)
  | .table pairs path :: stack, .closeBrace => do
    let entries ← addAll [] ((path, v) :: pairs).reverse
    some (.done (.table .inline entries) root stack, none)
  | _, _ => none

def step : State → Token → Option Step
  | .start, .blank _ => some (.start, none)
  | .start, .newline => some (.start, none)
  | .start, .comment => some (.lineEnd, none)
  | .start, .openBracket => some (.headerStart, none)
  | .start, t => beginPart .pair [] t
  | .lineEnd, .blank _ => some (.lineEnd, none)
  | .lineEnd, .comment => some (.lineEnd, none)
  | .lineEnd, .newline => some (.start, none)
  | .lineEnd, _ => none
  | .headerStart, .openBracket => some (.part .rowHeader [], none)
  | .headerStart, t => beginPart .header [] t
  | .headerEnd path, .closeBracket => some (.lineEnd, some (.rowHeader path))
  | .headerEnd _, _ => none
  | .part use parts, t => beginPart use parts t
  | .afterPart use parts last, t => endPart use parts last t
  | .firstKey root stack, .blank _ => some (.firstKey root stack, none)
  | .firstKey root stack, .closeBrace => some (.done (.table .inline []) root stack, none)
  | .firstKey root stack, t => beginPart (.inline [] root stack) [] t
  | .value root stack, t => beginValue root stack t
  | .bare s root stack, .bare t => some (.bare (s ++ t) root stack, none)
  | .bare s root stack, .dot => some (.bare (s ++ ['.']) root stack, none)
  | .bare s root stack, t =>
    if t = .blank [' '] ∧ isDate s then some (.afterDate s root stack, none)
    else (scalar? s).bind fun v => endValue v root stack t
  | .afterDate s root stack, .bare t => some (.bare (s ++ ' ' :: t) root stack, none)
  | .afterDate s root stack, t => (scalar? s).bind fun v => endValue v root stack t
  | .done v root stack, t => endValue v root stack t

/-- The end of the text, which ends a line. -/
def finish : State → Option (Option Statement)
  | .start => some none
  | .lineEnd => some none
  | .bare s root [] => (scalar? s).map fun v => some (.pair root v)
  | .afterDate s root [] => (scalar? s).map fun v => some (.pair root v)
  | .done v root [] => some (some (.pair root v))
  | _ => none

/-- The statements of the tokens from a state on. -/
def statementsFrom : State → List Token → Option (List Statement)
  | state, [] => (finish state).map Option.toList
  | state, t :: ts => do
    let (state, statement) ← step state t
    let statements ← statementsFrom state ts
    some (statement.toList ++ statements)

end ScriptTree.Toml
