import ScriptTree.Json.Basic
import ScriptTree.Text.Digits

/-! The tokens of JSON text: how each is written, and how a text is cut into them. -/
namespace ScriptTree.Json

inductive Token where
  | openArray
  | closeArray
  | openObject
  | closeObject
  | comma
  | colon
  | scalar (s : Scalar)
  deriving DecidableEq, Repr

/-- The hexadecimal digits of a number below 256. -/
def hexPair (n : Nat) : List Char :=
  [Nat.digitChar (n / 16), Nat.digitChar (n % 16)]

/-- A character inside a quoted string: quote, backslash and control characters are escaped. -/
def escapeChar (c : Char) : List Char :=
  if c = '"' then ['\\', '"']
  else if c = '\\' then ['\\', '\\']
  else if c = '\x08' then ['\\', 'b']
  else if c = '\t' then ['\\', 't']
  else if c = '\n' then ['\\', 'n']
  else if c = '\x0c' then ['\\', 'f']
  else if c = '\r' then ['\\', 'r']
  else if c.toNat < 0x20 then ['\\', 'u', '0', '0'] ++ hexPair c.toNat
  else [c]

def quote (s : List Char) : List Char :=
  '"' :: s.flatMap escapeChar ++ ['"']

def digits : Int → List Char
  | .ofNat n => Nat.toDigits 10 n
  | .negSucc n => '-' :: Nat.toDigits 10 (n + 1)

def Scalar.text : Scalar → List Char
  | .null => ['n', 'u', 'l', 'l']
  | .bool true => ['t', 'r', 'u', 'e']
  | .bool false => ['f', 'a', 'l', 's', 'e']
  | .int n => digits n
  | .decimal m e => digits m ++ 'e' :: digits e
  | .str s => quote s.toList

def Token.text : Token → List Char
  | .openArray => ['[']
  | .closeArray => [']']
  | .openObject => ['\x7b']
  | .closeObject => ['\x7d']
  | .comma => [',']
  | .colon => [':']
  | .scalar s => s.text

/-- The code unit of four hexadecimal digits. -/
def unit? (a b c d : Char) : Option Nat :=
  Text.number? 16 [a, b, c, d]

/-- The character of an escape by a single letter. -/
def letterEscape? : Char → Option Char
  | '"' => some '"'
  | '\\' => some '\\'
  | '/' => some '/'
  | 'b' => some '\x08'
  | 'f' => some '\x0c'
  | 'n' => some '\n'
  | 'r' => some '\r'
  | 't' => some '\t'
  | _ => none

/-- The rest of a quoted string up to its closing quote, unescaped, and what follows the quote. -/
def scanString : List Char → Option (List Char × List Char)
  | [] => none
  | '"' :: s => some ([], s)
  | '\\' :: 'u' :: a :: b :: c :: d :: s =>
    match unit? a b c d with
    | none => none
    | some high =>
      if 0xD800 ≤ high ∧ high < 0xDC00 then
        match s with
        | '\\' :: 'u' :: a' :: b' :: c' :: d' :: t =>
          match unit? a' b' c' d' with
          | none => none
          | some low =>
            if 0xDC00 ≤ low ∧ low < 0xE000 then
              (scanString t).map fun (body, rest) =>
                (Char.ofNat (0x10000 + (high - 0xD800) * 0x400 + (low - 0xDC00)) :: body, rest)
            else none
        | _ => none
      else if 0xDC00 ≤ high ∧ high < 0xE000 then none
      else (scanString s).map fun (body, rest) => (Char.ofNat high :: body, rest)
  | '\\' :: c :: s =>
    match letterEscape? c with
    | none => none
    | some d => (scanString s).map fun (body, rest) => (d :: body, rest)
  | c :: s =>
    if c.toNat < 0x20 ∨ c = '\\' then none
    else (scanString s).map fun (body, rest) => (c :: body, rest)

/-- The exponent part of a number: nothing, or a letter, a sign and digits. -/
def exponent? : List Char → Option Int
  | [] => some 0
  | c :: s =>
    if c = 'e' ∨ c = 'E' then
      match s with
      | '-' :: t => (Text.number? 10 t).map fun n => -(n : Int)
      | '+' :: t => (Text.number? 10 t).map Int.ofNat
      | t => (Text.number? 10 t).map Int.ofNat
    else none

/-- The scalar of a number given by its sign, its whole part and what follows that. -/
def number? (negative : Bool) (whole rest : List Char) : Option Scalar :=
  let signed (n : Nat) : Int := if negative then -(n : Int) else n
  if whole = [] ∨ (whole.length ≠ 1 ∧ whole.head? = some '0') then none
  else match rest with
    | [] =>
      if negative ∧ whole = ['0'] then some (.decimal 0 0)
      else some (.int (signed (Text.ofDigits 10 whole)))
    | '.' :: s =>
      let fraction := s.takeWhile Char.isDigit
      if fraction = [] then none
      else (exponent? (s.dropWhile Char.isDigit)).map fun e =>
        .decimal (signed (Text.ofDigits 10 (whole ++ fraction))) (e - fraction.length)
    | s => (exponent? s).map fun e => .decimal (signed (Text.ofDigits 10 whole)) e

def numeral? : List Char → Option Scalar
  | '-' :: s => number? true (s.takeWhile Char.isDigit) (s.dropWhile Char.isDigit)
  | s => number? false (s.takeWhile Char.isDigit) (s.dropWhile Char.isDigit)

def isNumeric (c : Char) : Bool :=
  c.isDigit || c == '-' || c == '+' || c == '.' || c == 'e' || c == 'E'

def isSpace (c : Char) : Bool :=
  c == ' ' || c == '\t' || c == '\n' || c == '\r'

/-- The token at the front of a text that starts with no blank, and what follows it. -/
def scanToken : List Char → Option (Token × List Char)
  | '[' :: s => some (.openArray, s)
  | ']' :: s => some (.closeArray, s)
  | '\x7b' :: s => some (.openObject, s)
  | '\x7d' :: s => some (.closeObject, s)
  | ',' :: s => some (.comma, s)
  | ':' :: s => some (.colon, s)
  | '"' :: s => (scanString s).map fun (body, rest) => (.scalar (.str (String.ofList body)), rest)
  | 'n' :: 'u' :: 'l' :: 'l' :: s => some (.scalar .null, s)
  | 't' :: 'r' :: 'u' :: 'e' :: s => some (.scalar (.bool true), s)
  | 'f' :: 'a' :: 'l' :: 's' :: 'e' :: s => some (.scalar (.bool false), s)
  | s =>
    if s.takeWhile isNumeric = [] then none
    else (numeral? (s.takeWhile isNumeric)).map fun n => (.scalar n, s.dropWhile isNumeric)

theorem scanString_length {s body rest : List Char} (h : scanString s = some (body, rest)) :
    rest.length < s.length := by
  fun_induction scanString s generalizing body rest <;> simp_all <;> grind

theorem length_dropWhile_lt {α : Type} {p : α → Bool} {s : List α} (h : s.takeWhile p ≠ []) :
    (s.dropWhile p).length < s.length := by
  have h1 := congrArg List.length (List.takeWhile_append_dropWhile (p := p) (l := s))
  have h2 := List.length_pos_iff.mpr h
  simp only [List.length_append] at h1
  omega

theorem scanToken_length {s rest : List Char} {t : Token} (h : scanToken s = some (t, rest)) :
    rest.length < s.length := by
  unfold scanToken at h
  split at h
  case h_7 s =>
    simp only [Option.map_eq_some_iff, Prod.exists, Prod.mk.injEq] at h
    obtain ⟨body, r, hs, _, rfl⟩ := h
    have := scanString_length hs
    simp only [List.length_cons]
    omega
  case h_11 =>
    split at h
    · simp at h
    next hn =>
      simp only [Option.map_eq_some_iff, Prod.mk.injEq] at h
      obtain ⟨_, _, _, rfl⟩ := h
      exact length_dropWhile_lt hn
  all_goals
    simp only [Option.some.injEq, Prod.mk.injEq] at h
    obtain ⟨_, rfl⟩ := h
    simp only [List.length_cons]
    omega

/-- The tokens of a text, blanks between them left out. -/
def tokens (s : List Char) : Option (List Token) :=
  match hs : s.dropWhile isSpace with
  | [] => some []
  | c :: s' =>
    match h : scanToken (c :: s') with
    | none => none
    | some (t, rest) =>
      have : rest.length < s.length :=
        Nat.lt_of_lt_of_le (scanToken_length h) (hs ▸ (List.dropWhile_sublist isSpace).length_le)
      (tokens rest).map (t :: ·)
termination_by s.length

end ScriptTree.Json
