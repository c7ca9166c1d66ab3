import ScriptTree.Named

/-! Positions in a text in the unit its readers count in, looked up by byte. -/
namespace ScriptTree

/-- What a position counts. -/
inductive OffsetUnit where
  /-- Code units of UTF-16. -/
  | utf16
  /-- Bytes of UTF-8. -/
  | utf8
  /-- Characters. -/
  | chars
  deriving DecidableEq, Repr, Inhabited

namespace OffsetUnit

def name : OffsetUnit → String
  | .utf16 => "utf16"
  | .utf8 => "utf8"
  | .chars => "chars"

instance : Named OffsetUnit := ⟨[.utf16, .utf8, .chars], name⟩

/-- How many units one character takes. -/
def width : OffsetUnit → Char → Nat
  | .utf16, c => if c.toNat < 0x10000 then 1 else 2
  | .utf8, c => c.utf8Size
  | .chars, _ => 1

end OffsetUnit

/-- The look-up from bytes to units for one text; without a table bytes are units. -/
structure OffsetMap where
  table : Option (Array UInt32)
  deriving DecidableEq, Repr

namespace OffsetMap

/-- The units before each byte of a text that starts after `units`, and at its end. -/
def entries (unit : OffsetUnit) : UInt32 → List Char → List UInt32
  | units, [] => [units]
  | units, c :: s =>
    List.replicate c.utf8Size units ++ entries unit (units + UInt32.ofNat (unit.width c)) s

/-- The map for a text. Bytes already are units if those are asked for, or if the text is ASCII. -/
def ofText (source : List Char) (unit : OffsetUnit) : OffsetMap :=
  if unit = .utf8 ∨ source.all (·.toNat < 0x80) then ⟨none⟩
  else ⟨some (entries unit 0 source).toArray⟩

/-- The unit offset of a byte. A byte inside a character has the offset of that character, and the
table ends with the length of the text. -/
def offset (m : OffsetMap) (byte : Nat) : Nat :=
  match m.table with
  | none => byte
  | some table => (table.getD (min byte (table.size - 1)) 0).toNat

end OffsetMap

end ScriptTree
