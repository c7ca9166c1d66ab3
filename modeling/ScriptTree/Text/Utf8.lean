/-! Decoding UTF-8, strictly or with a replacement character for each maximal invalid part. -/
namespace ScriptTree.Text

/-- The character that stands for what could not be decoded. -/
def replacement : Char := '\uFFFD'

/-- The character of a code point, unless it is a surrogate or too large. -/
def scalar? (n : Nat) : Option Char :=
  if n.isValidChar then some (Char.ofNat n) else none

def isContinuation (b : UInt8) : Bool := 0x80 ≤ b && b ≤ 0xBF

/-- The number of continuation bytes after a leading byte and the range of the first of them. -/
def continuation? (lead : UInt8) : Option (Nat × UInt8 × UInt8) :=
  if 0xC2 ≤ lead && lead ≤ 0xDF then some (1, 0x80, 0xBF)
  else if lead == 0xE0 then some (2, 0xA0, 0xBF)
  else if lead == 0xED then some (2, 0x80, 0x9F)
  else if 0xE1 ≤ lead && lead ≤ 0xEF then some (2, 0x80, 0xBF)
  else if lead == 0xF0 then some (3, 0x90, 0xBF)
  else if 0xF1 ≤ lead && lead ≤ 0xF3 then some (3, 0x80, 0xBF)
  else if lead == 0xF4 then some (3, 0x80, 0x8F)
  else none

/-- The bytes after a leading byte that can belong to its character, at most `n` of them. -/
def continued (n : Nat) (lo hi : UInt8) : List UInt8 → List UInt8
  | [] => []
  | b :: rest => if lo ≤ b && b ≤ hi then b :: (rest.take (n - 1)).takeWhile isContinuation else []

/-- The code point of a leading byte with all its continuation bytes. -/
def codePoint (lead : UInt8) (tail : List UInt8) : Nat :=
  let bits := match tail.length with
    | 1 => lead.toNat % 0x20
    | 2 => lead.toNat % 0x10
    | _ => lead.toNat % 0x08
  tail.foldl (fun n b => n * 0x40 + b.toNat % 0x40) bits

/-- The character at the front, if it is well formed, and the number of bytes after the first that it
or the maximal invalid part takes. -/
def decodeFirst (lead : UInt8) (rest : List UInt8) : Option Char × Nat :=
  if lead < 0x80 then (some (Char.ofNat lead.toNat), 0)
  else match continuation? lead with
    | none => (none, 0)
    | some (n, lo, hi) =>
      let tail := continued n lo hi rest
      if tail.length = n then (some (Char.ofNat (codePoint lead tail)), n) else (none, tail.length)

/-- The text of the bytes, with one replacement character for each maximal invalid part. -/
def decodeLossy : List UInt8 → List Char
  | [] => []
  | lead :: rest =>
    (decodeFirst lead rest).1.getD replacement :: decodeLossy (rest.drop (decodeFirst lead rest).2)
termination_by bytes => bytes.length
decreasing_by simp only [List.length_drop, List.length_cons]; omega

/-- The text of the bytes, if all of them are well formed. -/
def decode? : List UInt8 → Option (List Char)
  | [] => some []
  | lead :: rest =>
    match decodeFirst lead rest with
    | (some c, n) => (decode? (rest.drop n)).map (c :: ·)
    | (none, _) => none
termination_by bytes => bytes.length
decreasing_by simp only [List.length_drop, List.length_cons]; omega

end ScriptTree.Text
