import ScriptTree.Text.Digits
import ScriptTree.Toml.Value

/-! TOML values that are written without quotes or brackets: booleans, numbers, dates and times. -/
namespace ScriptTree.Toml

open Text (isDigitOf ofDigits number?)

/-- The digits of a number without the underscores, each of which has to stand between two digits. -/
def plainDigits? (base : Nat) : List Char → Option (List Char)
  | [] => none
  | [d] => if isDigitOf base d then some [d] else none
  | d :: '_' :: s => if isDigitOf base d then (plainDigits? base s).map (d :: ·) else none
  | d :: s => if isDigitOf base d then (plainDigits? base s).map (d :: ·) else none

/-- A text without its sign, and whether that is a minus. -/
def unsign : List Char → Bool × List Char
  | '-' :: s => (true, s)
  | '+' :: s => (false, s)
  | s => (false, s)

/-- The digits of a decimal number, which starts with zero only if it is zero. -/
def wholeDigits? (s : List Char) : Option (List Char) :=
  (plainDigits? 10 s).filter fun ds => ds.length = 1 ∨ ds.head? ≠ some '0'

/-- The least integer above those of 64 bits. -/
def wordBound : Int := 0x8000000000000000

/-- An integer of 64 bits in the given base, without sign. -/
def wordOf? (base : Nat) (s : List Char) : Option Int :=
  ((plainDigits? base s).map fun ds => (ofDigits base ds : Int)).filter (· < wordBound)

def int? : List Char → Option Int
  | '0' :: 'x' :: s => wordOf? 16 s
  | '0' :: 'o' :: s => wordOf? 8 s
  | '0' :: 'b' :: s => wordOf? 2 s
  | s =>
    let (negative, ds) := unsign s
    ((wholeDigits? ds).map fun ds =>
      if negative then -(ofDigits 10 ds : Int) else ofDigits 10 ds).filter
        fun n => -wordBound ≤ n ∧ n < wordBound

/-- The characters of digits that may be grouped by underscores. -/
def isGrouped (c : Char) : Bool := c.isDigit || c == '_'

/-- The exponent of a number: a letter, a sign and digits; zero if there is nothing. -/
def exponent? : List Char → Option Int
  | [] => some 0
  | c :: s =>
    if c = 'e' ∨ c = 'E' then
      let (negative, ds) := unsign s
      (plainDigits? 10 ds).map fun ds =>
        if negative then -(ofDigits 10 ds : Int) else ofDigits 10 ds
    else none

/-- Whether `coefficient * 10 ^ exponent` is rounded to infinity in binary floating point with 53 bits
and exponents up to 1023. -/
def isInfinite (coefficient : Nat) (exponent : Int) : Bool :=
  let magnitude := (Nat.toDigits 10 coefficient).length + exponent
  if coefficient = 0 ∨ magnitude < 309 then false
  else if 310 < magnitude then true
  else
    let bound := Nat.pow 2 1024 - Nat.pow 2 970
    match exponent with
    | .ofNat e => bound ≤ coefficient * Nat.pow 10 e
    | .negSucc e => bound * Nat.pow 10 (e + 1) ≤ coefficient

/-- Whether a text without sign and special names is a finite floating-point number. A negative one may
also be infinite. -/
def isDecimal (negative : Bool) (s : List Char) : Bool :=
  let tail := s.dropWhile isGrouped
  let parts : Option (List Char × List Char × Int) := do
    let whole ← wholeDigits? (s.takeWhile isGrouped)
    match tail with
    | [] => none
    | '.' :: t =>
      let fraction ← plainDigits? 10 (t.takeWhile isGrouped)
      some (whole, fraction, ← exponent? (t.dropWhile isGrouped))
    | t => some (whole, [], ← exponent? t)
  match parts with
  | none => false
  | some (whole, fraction, e) =>
    negative || !isInfinite (ofDigits 10 (whole ++ fraction)) (e - fraction.length)

def isFloat (s : List Char) : Bool :=
  let (negative, t) := unsign s
  t == ['i', 'n', 'f'] || t == ['n', 'a', 'n'] || isDecimal negative t

def pair? (lo hi : Nat) (a b : Char) : Option Nat :=
  (number? 10 [a, b]).filter fun n => lo ≤ n ∧ n ≤ hi

def daysIn (year month : Nat) : Nat :=
  if month = 2 then if year % 4 = 0 ∧ (year % 100 ≠ 0 ∨ year % 400 = 0) then 29 else 28
  else if month = 4 ∨ month = 6 ∨ month = 9 ∨ month = 11 then 30
  else 31

/-- Whether a text is a date of the calendar. -/
def isDate : List Char → Bool
  | [y1, y2, y3, y4, '-', m1, m2, '-', d1, d2] =>
    match number? 10 [y1, y2, y3, y4], pair? 1 12 m1 m2 with
    | some year, some month => (pair? 1 (daysIn year month) d1 d2).isSome
    | _, _ => false
  | _ => false

/-- Whether a text is nothing, or a point and digits. -/
def isFraction : List Char → Bool
  | [] => true
  | '.' :: s => (number? 10 s).isSome
  | _ => false

/-- Whether a text is a time of day; the last minute may have a leap second. -/
def isTime : List Char → Bool
  | h1 :: h2 :: ':' :: m1 :: m2 :: ':' :: s1 :: s2 :: s =>
    (pair? 0 23 h1 h2).isSome && (pair? 0 59 m1 m2).isSome && (pair? 0 60 s1 s2).isSome &&
      isFraction s
  | _ => false

/-- Whether a text is an offset from universal time, or nothing. -/
def isZone : List Char → Bool
  | [] => true
  | ['Z'] => true
  | ['z'] => true
  | [sign, h1, h2, ':', m1, m2] =>
    (sign == '+' || sign == '-') && (pair? 0 23 h1 h2).isSome && (pair? 0 59 m1 m2).isSome
  | _ => false

/-- Whether a character can stand in a time without offset. -/
def isClock (c : Char) : Bool := c.isDigit || c == ':' || c == '.'

/-- Whether a text is a date, a time, or a date and a time with an offset or without. -/
def isDatetime (s : List Char) : Bool :=
  isDate s || isTime s ||
    match s.drop 10 with
    | [] => false
    | delimiter :: t =>
      (delimiter == 'T' || delimiter == 't' || delimiter == ' ') && isDate (s.take 10) &&
        isTime (t.takeWhile isClock) && isZone (t.dropWhile isClock)

/-- The value that a text without quotes spells. -/
def scalar? (s : List Char) : Option Value :=
  if s = ['t', 'r', 'u', 'e'] then some (.bool true)
  else if s = ['f', 'a', 'l', 's', 'e'] then some (.bool false)
  else if isDatetime s then some (.datetime (String.ofList s))
  else if isFloat s then some (.float (String.ofList s))
  else (int? s).map .int

end ScriptTree.Toml
