import ScriptTree.Text.Bytes
import ScriptTree.Text.Digits
import ScriptTree.Text.Utf8

/-! The text that a quoted string literal denotes. -/
namespace ScriptTree.StringLiteral

/-- A number below 2^32 in hexadecimal digits, with a plus sign allowed in front. -/
def hexNumber? (digits : List Char) : Option Nat :=
  let unsigned := match digits with
    | '+' :: s => s
    | s => s
  (Text.number? 16 unsigned).filter (· < UInt32.size)

/-- The number that the first `n` characters spell in hexadecimal digits. -/
def hexPrefix? (n : Nat) (s : List Char) : Option Nat :=
  if n ≤ s.length then hexNumber? (s.take n) else none

/-- The low surrogate that an escape at the front of `s` gives. -/
def lowSurrogate? : List Char → Option Nat
  | '\\' :: 'u' :: s => (hexPrefix? 4 s).filter fun n => 0xDC00 ≤ n ∧ n < 0xE000
  | _ => none

/-- What follows `\u{`: the character, if there is one, and how many characters the escape takes. -/
def bracedEscape (s : List Char) : Option Char × Nat :=
  let digits := s.takeWhile (· ≠ '\x7d')
  if digits.length = s.length then (none, 0)
  else match hexNumber? digits with
    | none => (none, 0)
    | some n => (Text.scalar? n, digits.length + 2)

/-- What follows `\u`: the character, if there is one, and how many characters the escape takes. -/
def unicodeEscape (s : List Char) : Option Char × Nat :=
  match s with
  | '\x7b' :: t => bracedEscape t
  | _ => match hexPrefix? 4 s with
    | none => (none, 0)
    | some high =>
      if 0xD800 ≤ high ∧ high < 0xDC00 then
        match lowSurrogate? (s.drop 4) with
        | some low => (Text.scalar? (0x10000 + (high - 0xD800) * 0x400 + (low - 0xDC00)), 10)
        | none => (none, 4)
      else (Text.scalar? high, 4)

/-- What follows `\x`: the character, if there is one, and how many characters the escape takes. -/
def byteEscape (s : List Char) : Option Char × Nat :=
  match hexPrefix? 2 s with
  | none => (none, 0)
  | some n => (Text.scalar? n, 2)

/-- The character of an escape by a single letter. -/
def letterEscape? : Char → Option Char
  | 'n' => some '\n'
  | 't' => some '\t'
  | 'r' => some '\r'
  | 'b' => some '\x08'
  | 'f' => some '\x0c'
  | 'v' => some '\x0b'
  | '0' => some '\x00'
  | _ => none

/-- What the character `c` after a backslash, with `s` behind it, gives: the text and how many
characters of `s` belong to the escape. A line break gives nothing. -/
def escape (c : Char) (s : List Char) : List Char × Nat :=
  match letterEscape? c with
  | some d => ([d], 0)
  | none =>
    if c = 'x' then ([(byteEscape s).1.getD Text.replacement], (byteEscape s).2)
    else if c = 'u' then ([(unicodeEscape s).1.getD Text.replacement], (unicodeEscape s).2)
    else if c = '\r' then ([], if s.head? = some '\n' then 1 else 0)
    else if c = '\n' ∨ c = '\u2028' ∨ c = '\u2029' then ([], 0)
    else ([c], 0)

/-- The text that the inside of a literal denotes. -/
def unescape : List Char → List Char
  | [] => []
  | c :: s =>
    if c ≠ '\\' then c :: unescape s
    else match s with
      | [] => []
      | d :: t => (escape d t).1 ++ unescape (t.drop (escape d t).2)
termination_by s => s.length
decreasing_by
  all_goals simp only [List.length_drop, List.length_cons]; omega

/-- The text that a literal denotes: what stands between its first and its last byte, unescaped. -/
def value (raw : List Char) : List Char :=
  unescape (Text.slice raw 1 (Text.byteLength raw - 1))

end ScriptTree.StringLiteral
