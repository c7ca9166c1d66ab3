/-! Positions in a text counted in the bytes of its UTF-8 form. -/
namespace ScriptTree.Text

def byteLength : List Char → Nat
  | [] => 0
  | c :: s => c.utf8Size + byteLength s

/-- The text from byte `n` on, unless `n` lies inside a character or beyond the end. -/
def dropBytes? : Nat → List Char → Option (List Char)
  | 0, s => some s
  | _ + 1, [] => none
  | n + 1, c :: s => if c.utf8Size ≤ n + 1 then dropBytes? (n + 1 - c.utf8Size) s else none

/-- The text up to byte `n`, unless `n` lies inside a character or beyond the end. -/
def takeBytes? : Nat → List Char → Option (List Char)
  | 0, _ => some []
  | _ + 1, [] => none
  | n + 1, c :: s =>
    if c.utf8Size ≤ n + 1 then (takeBytes? (n + 1 - c.utf8Size) s).map (c :: ·) else none

/-- The bytes `start` to `stop` of a text, when they are in order and both on a boundary of it. -/
def slice? (s : List Char) (start stop : Nat) : Option (List Char) :=
  if start ≤ stop then (dropBytes? start s).bind (takeBytes? (stop - start)) else none

/-- The bytes `start` to `stop` of a text; empty when they are no slice of it. -/
def slice (s : List Char) (start stop : Nat) : List Char :=
  (slice? s start stop).getD []

end ScriptTree.Text
