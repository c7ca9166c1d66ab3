import ScriptTree.Json.Token

/-! Writing JSON values, on one line or indented. -/
namespace ScriptTree.Json

/-- How the tokens of a value are set apart. -/
inductive Style where
  /-- Nothing between the tokens. -/
  | compact
  /-- A line for each part, indented by two blanks a level. -/
  | pretty
  deriving DecidableEq, Repr

/-- A piece of written JSON: a token or blanks between tokens. -/
inductive Piece where
  | token (t : Token)
  | space (s : List Char)
  deriving DecidableEq, Repr

def Piece.text : Piece → List Char
  | .token t => t.text
  | .space s => s

/-- The line break before a part at the given level. -/
def Style.line : Style → Nat → List Char
  | .compact, _ => []
  | .pretty, level => '\n' :: List.replicate (2 * level) ' '

/-- The blanks after a colon. -/
def Style.gap : Style → List Char
  | .compact => []
  | .pretty => [' ']

mutual

/-- The pieces of a value at the given level, with `more` behind them. -/
def pieces (style : Style) (level : Nat) : Json → List Piece → List Piece
  | .scalar s, more => .token (.scalar s) :: more
  | .arr [], more => .token .openArray :: .token .closeArray :: more
  | .arr (item :: items), more =>
    .token .openArray :: .space (style.line (level + 1)) ::
      pieces style (level + 1) item (itemPieces style level items more)
  | .obj [], more => .token .openObject :: .token .closeObject :: more
  | .obj ((key, value) :: members), more =>
    .token .openObject :: .space (style.line (level + 1)) ::
      .token (.scalar (.str key)) :: .token .colon :: .space style.gap ::
      pieces style (level + 1) value (memberPieces style level members more)

/-- The pieces of the further elements of an array. -/
def itemPieces (style : Style) (level : Nat) : List Json → List Piece → List Piece
  | [], more => .space (style.line level) :: .token .closeArray :: more
  | item :: items, more =>
    .token .comma :: .space (style.line (level + 1)) ::
      pieces style (level + 1) item (itemPieces style level items more)

/-- The pieces of the further members of an object. -/
def memberPieces (style : Style) (level : Nat) : List (String × Json) → List Piece → List Piece
  | [], more => .space (style.line level) :: .token .closeObject :: more
  | (key, value) :: members, more =>
    .token .comma :: .space (style.line (level + 1)) ::
      .token (.scalar (.str key)) :: .token .colon :: .space style.gap ::
      pieces style (level + 1) value (memberPieces style level members more)

end

def render (style : Style) (value : Json) : List Char :=
  (pieces style 0 value []).flatMap Piece.text

end ScriptTree.Json
