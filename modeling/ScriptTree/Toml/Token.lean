import ScriptTree.Text.Digits
import ScriptTree.Text.Utf8

/-! The tokens of TOML text. -/
namespace ScriptTree.Toml

/-- A token. Blanks are kept, since a date and a time may have one between them. -/
inductive Token where
  | blank (s : List Char)
  | newline
  | comment
  /-- Characters of keys, numbers, dates and booleans, without points. -/
  | bare (s : List Char)
  /-- A string on one line. -/
  | line (s : String)
  /-- A string between triple quotes. -/
  | text (s : String)
  | dot
  | equals
  | comma
  | openBracket
  | closeBracket
  | openBrace
  | closeBrace
  deriving DecidableEq, Repr

def isBlank (c : Char) : Bool := c == ' ' || c == '\t'

/-- Whether a character may stand in comments and strings: no control character but the tab. -/
def isTextChar (c : Char) : Bool := c == '\t' || (0x20 ≤ c.toNat && c.toNat ≠ 0x7F)

/-- Whether a character may stand in a bare token. -/
def isBareChar (c : Char) : Bool := c.isAlphanum || c == '_' || c == '-' || c == '+' || c == ':'

/-- The character of `n` hexadecimal digits in front. -/
def hexChar? (n : Nat) (s : List Char) : Option Char :=
  if n ≤ s.length then (Text.number? 16 (s.take n)).bind Text.scalar? else none

/-- The character of the escape after a backslash, and how many characters the escape takes. -/
def escape? : List Char → Option (Char × Nat)
  | 'b' :: _ => some ('\x08', 1)
  | 'f' :: _ => some ('\x0c', 1)
  | 'n' :: _ => some ('\n', 1)
  | 'r' :: _ => some ('\r', 1)
  | 't' :: _ => some ('\t', 1)
  | '\\' :: _ => some ('\\', 1)
  | '"' :: _ => some ('"', 1)
  | 'u' :: s => (hexChar? 4 s).map (·, 5)
  | 'U' :: s => (hexChar? 8 s).map (·, 9)
  | _ => none

/-- The rest of a string on one line and what follows it. Only double quotes allow escapes. -/
def scanLine (quote : Char) : List Char → Option (List Char × List Char)
  | [] => none
  | c :: s =>
    if c = quote then some ([], s)
    else if c = '\\' ∧ quote = '"' then
      match escape? s with
      | none => none
      | some (d, n) => (scanLine quote (s.drop n)).map fun (body, rest) => (d :: body, rest)
    else if isTextChar c then (scanLine quote s).map fun (body, rest) => (c :: body, rest)
    else none
termination_by s => s.length
decreasing_by all_goals simp only [List.length_drop, List.length_cons]; omega

/-- A text without the blanks and line breaks in front. -/
def skipSpace : List Char → List Char
  | ' ' :: s => skipSpace s
  | '\t' :: s => skipSpace s
  | '\n' :: s => skipSpace s
  | '\r' :: '\n' :: s => skipSpace s
  | s => s

/-- Whether a line ends in front of the text, blanks aside. -/
def endsLine (s : List Char) : Bool :=
  match s.dropWhile isBlank with
  | '\n' :: _ => true
  | '\r' :: '\n' :: _ => true
  | _ => false

theorem length_skipSpace (s : List Char) : (skipSpace s).length ≤ s.length := by
  fun_induction skipSpace s <;> grind

/-- The rest of a string between triple quotes and what follows it. Up to two quotes may stand before
the closing ones. A backslash at the end of a line skips to the next character that is not space. -/
def scanText (quote : Char) : List Char → Option (List Char × List Char)
  | [] => none
  | c :: s =>
    if c = quote then
      let run := (s.takeWhile (· = quote)).length + 1
      if run < 3 then (scanText quote s).map fun (body, rest) => (c :: body, rest)
      else if run ≤ 5 then some (List.replicate (run - 3) quote, s.drop (run - 1))
      else none
    else if c = '\\' ∧ quote = '"' then
      if endsLine s then
        have := length_skipSpace s
        scanText quote (skipSpace s)
      else match escape? s with
        | none => none
        | some (d, n) => (scanText quote (s.drop n)).map fun (body, rest) => (d :: body, rest)
    else if c = '\r' then
      match s with
      | '\n' :: t => (scanText quote t).map fun (body, rest) => ('\n' :: body, rest)
      | _ => none
    else if c = '\n' ∨ isTextChar c then
      (scanText quote s).map fun (body, rest) => (c :: body, rest)
    else none
termination_by s => s.length
decreasing_by all_goals simp only [List.length_drop, List.length_cons]; omega

/-- A text without the line break in front. -/
def skipNewline : List Char → List Char
  | '\n' :: s => s
  | '\r' :: '\n' :: s => s
  | s => s

def scanQuoted (quote : Char) (s : List Char) : Option (Token × List Char) :=
  if s.take 2 = [quote, quote] then
    (scanText quote (skipNewline (s.drop 2))).map fun (body, rest) =>
      (.text (String.ofList body), rest)
  else (scanLine quote s).map fun (body, rest) => (.line (String.ofList body), rest)

/-- The token that begins with `c`, and what follows it. -/
def scanToken (c : Char) (s : List Char) : Option (Token × List Char) :=
  if isBlank c then some (.blank (c :: s.takeWhile isBlank), s.dropWhile isBlank)
  else if isBareChar c then some (.bare (c :: s.takeWhile isBareChar), s.dropWhile isBareChar)
  else match c with
    | '\n' => some (.newline, s)
    | '\r' => if s.head? = some '\n' then some (.newline, s.drop 1) else none
    | '#' => some (.comment, s.dropWhile isTextChar)
    | '"' => scanQuoted '"' s
    | '\x27' => scanQuoted '\x27' s
    | '.' => some (.dot, s)
    | '=' => some (.equals, s)
    | ',' => some (.comma, s)
    | '[' => some (.openBracket, s)
    | ']' => some (.closeBracket, s)
    | '\x7b' => some (.openBrace, s)
    | '\x7d' => some (.closeBrace, s)
    | _ => none

theorem length_scanLine {quote : Char} {s body rest : List Char}
    (h : scanLine quote s = some (body, rest)) : rest.length ≤ s.length := by
  fun_induction scanLine quote s generalizing body rest <;> grind [Option.map_eq_some_iff]

theorem length_scanText {quote : Char} {s body rest : List Char}
    (h : scanText quote s = some (body, rest)) : rest.length ≤ s.length := by
  fun_induction scanText quote s generalizing body rest <;>
    grind [Option.map_eq_some_iff, List.length_drop, List.length_cons]

theorem length_scanQuoted {quote : Char} {s rest : List Char} {t : Token}
    (h : scanQuoted quote s = some (t, rest)) : rest.length ≤ s.length := by
  have hn : ∀ s : List Char, (skipNewline s).length ≤ s.length := by
    intro s
    fun_cases skipNewline s <;> grind
  unfold scanQuoted at h
  split at h
  · obtain ⟨⟨body, r⟩, hs, he⟩ := Option.map_eq_some_iff.1 h
    have h1 := length_scanText hs
    have h2 := hn (s.drop 2)
    grind
  · obtain ⟨⟨body, r⟩, hs, he⟩ := Option.map_eq_some_iff.1 h
    have h1 := length_scanLine hs
    grind

theorem length_scanToken {c : Char} {s rest : List Char} {t : Token}
    (h : scanToken c s = some (t, rest)) : rest.length ≤ s.length := by
  have hd : ∀ p : Char → Bool, (s.dropWhile p).length ≤ s.length := fun p =>
    (List.dropWhile_sublist p).length_le
  unfold scanToken at h
  split at h
  · grind
  split at h
  · grind
  split at h
  case h_4 => exact length_scanQuoted h
  case h_5 => exact length_scanQuoted h
  all_goals grind

def tokens (s : List Char) : Option (List Token) :=
  match s with
  | [] => some []
  | c :: s =>
    match h : scanToken c s with
    | none => none
    | some (t, rest) =>
      have : rest.length < s.length + 1 := Nat.lt_succ_of_le (length_scanToken h)
      (tokens rest).map (t :: ·)
termination_by s.length

end ScriptTree.Toml
