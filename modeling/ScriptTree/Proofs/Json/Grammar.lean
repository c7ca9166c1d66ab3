import ScriptTree.Json.Token
import ScriptTree.Proofs.Spelling

/-! The grammar of JSON texts. It gives each text the value that it denotes, in which the members of objects
keep their order. -/
namespace ScriptTree.Json

open StringLiteral (Hex)

/-- Blanks may stand around the tokens of a text. -/
def Blank (s : List Char) : Prop := ∀ c ∈ s, c ∈ [' ', '\t', '\n', '\r']

/-- The letters after a backslash with the characters that they stand for. -/
def letterEscapes : List (Char × Char) :=
  [('"', '"'), ('\\', '\\'), ('/', '/'), ('b', '\x08'), ('f', '\x0c'), ('n', '\n'), ('r', '\r'),
   ('t', '\t')]

/-- The ways to write a character of a string. -/
inductive Spelling : Char → List Char → Prop
  | plain {c : Char} (hcontrol : 0x20 ≤ c.toNat) (hquote : c ≠ '"') (hbackslash : c ≠ '\\') :
      Spelling c [c]
  | letter {c l : Char} (h : (l, c) ∈ letterEscapes) : Spelling c ['\\', l]
  | unit {c : Char} {s : List Char} (h : Hex c.toNat s) (hs : s.length = 4) :
      Spelling c ('\\' :: 'u' :: s)
  | pair {c : Char} {u v : UInt16} {s t : List Char} (hc : Text.utf16Units c = [u, v])
      (hu : Hex u.toNat s) (hs : s.length = 4) (hv : Hex v.toNat t) (ht : t.length = 4) :
      Spelling c ('\\' :: 'u' :: (s ++ '\\' :: 'u' :: t))

/-- What stands between the quotes of a string. -/
inductive Contents : List Char → List Char → Prop
  | nil : Contents [] []
  | cons {c : Char} {w s raw : List Char} (h : Spelling c w) (hraw : Contents s raw) :
      Contents (c :: s) (w ++ raw)

/-- A row of one or more digits. -/
def Digits (s : List Char) : Prop := s ≠ [] ∧ ∀ c ∈ s, c.isDigit

/-- The digits of a number before its point. The first of several is no zero. -/
def Whole (s : List Char) : Prop := Digits s ∧ (s.head? = some '0' → s = ['0'])

def sign (negative : Bool) : List Char := if negative then ['-'] else []

def signed (negative : Bool) (n : Nat) : Int := if negative then -n else n

/-- The exponent of a number, zero if there is none. -/
inductive Exponent : Int → List Char → Prop
  | absent : Exponent 0 []
  | unsigned {e : Char} {s : List Char} (he : e = 'e' ∨ e = 'E') (hs : Digits s) :
      Exponent (Text.ofDigits 10 s) (e :: s)
  | plus {e : Char} {s : List Char} (he : e = 'e' ∨ e = 'E') (hs : Digits s) :
      Exponent (Text.ofDigits 10 s) (e :: '+' :: s)
  | minus {e : Char} {s : List Char} (he : e = 'e' ∨ e = 'E') (hs : Digits s) :
      Exponent (-Text.ofDigits 10 s) (e :: '-' :: s)

/-- The digits behind the point of a number, point included, or nothing. -/
inductive Fraction : List Char → List Char → Prop
  | absent : Fraction [] []
  | digits {s : List Char} (hs : Digits s) : Fraction s ('.' :: s)

/-- The scalar of a number: an integer if it is written as one, and else its digits and the power of ten to
multiply them by. Minus zero is no integer. -/
def numberScalar (negative : Bool) (whole fraction exponent : List Char) (e : Int) : Scalar :=
  if fraction = [] ∧ exponent = [] ∧ ¬(negative ∧ whole = ['0']) then
    .int (signed negative (Text.ofDigits 10 whole))
  else .decimal (signed negative (Text.ofDigits 10 (whole ++ fraction))) (e - fraction.length)

/-- The texts of scalars. -/
inductive ScalarText : Scalar → List Char → Prop
  | null : ScalarText .null ['n', 'u', 'l', 'l']
  | true : ScalarText (.bool true) ['t', 'r', 'u', 'e']
  | false : ScalarText (.bool false) ['f', 'a', 'l', 's', 'e']
  | number (negative : Bool) {whole fraction f exponent : List Char} {e : Int} (hwhole : Whole whole)
      (hfraction : Fraction fraction f) (hexponent : Exponent e exponent) :
      ScalarText (numberScalar negative whole fraction exponent e)
        (sign negative ++ whole ++ f ++ exponent)
  | string {s raw : List Char} (h : Contents s raw) :
      ScalarText (.str (String.ofList s)) ('"' :: raw ++ ['"'])

/-- What texts can be made of. -/
inductive Phrase where
  | value (v : Json)
  /-- A value with blanks around it. -/
  | element (v : Json)
  /-- The elements of an array that is not empty. -/
  | elements (vs : List Json)
  | member (key : String) (v : Json)
  /-- The members of an object that is not empty. -/
  | members (ms : List (String × Json))

inductive PhraseText : Phrase → List Char → Prop
  | scalar {s : Scalar} {t : List Char} (h : ScalarText s t) : PhraseText (.value (.scalar s)) t
  | emptyArray {b : List Char} (hb : Blank b) : PhraseText (.value (.arr [])) ('[' :: b ++ [']'])
  | array {vs : List Json} {t : List Char} (h : PhraseText (.elements vs) t) :
      PhraseText (.value (.arr vs)) ('[' :: t ++ [']'])
  | emptyObject {b : List Char} (hb : Blank b) :
      PhraseText (.value (.obj [])) ('\x7b' :: b ++ ['\x7d'])
  | object {ms : List (String × Json)} {t : List Char} (h : PhraseText (.members ms) t) :
      PhraseText (.value (.obj ms)) ('\x7b' :: t ++ ['\x7d'])
  | element {v : Json} {a t b : List Char} (ha : Blank a) (h : PhraseText (.value v) t)
      (hb : Blank b) : PhraseText (.element v) (a ++ t ++ b)
  | lastElement {v : Json} {t : List Char} (h : PhraseText (.element v) t) :
      PhraseText (.elements [v]) t
  | elements {v : Json} {vs : List Json} {t u : List Char} (h : PhraseText (.element v) t)
      (hu : PhraseText (.elements vs) u) : PhraseText (.elements (v :: vs)) (t ++ ',' :: u)
  | member {key : String} {v : Json} {a k b t : List Char} (ha : Blank a)
      (hk : ScalarText (.str key) k) (hb : Blank b) (h : PhraseText (.element v) t) :
      PhraseText (.member key v) (a ++ k ++ b ++ ':' :: t)
  | lastMember {key : String} {v : Json} {t : List Char} (h : PhraseText (.member key v) t) :
      PhraseText (.members [(key, v)]) t
  | members {key : String} {v : Json} {ms : List (String × Json)} {t u : List Char}
      (h : PhraseText (.member key v) t) (hu : PhraseText (.members ms) u) :
      PhraseText (.members ((key, v) :: ms)) (t ++ ',' :: u)

end ScriptTree.Json
