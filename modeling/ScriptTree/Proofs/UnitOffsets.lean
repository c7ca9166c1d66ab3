import Mathlib.Data.Set.Function
import ScriptTree.Proofs.OffsetMap

/-! What a map makes of every byte. Up to the end of the text it counts the units of the characters that end
before the byte, without a sum too large or a look-up out of range. Beyond the end only a table stops
counting. -/
namespace ScriptTree

namespace OffsetUnit

end OffsetUnit

namespace OffsetMap

/-- In a text of ASCII the units before a byte are the bytes before it, up to the end. -/
theorem length_endedBefore_of_ascii {source : List Char} (h : source.all (·.toNat < 0x80))
    (unit : OffsetUnit) (byte : Nat) :
    unit.length (Text.endedBefore source byte) = min byte (Text.byteLength source) := by
  induction source generalizing byte with
  | nil => simp [Text.endedBefore, Text.lastBytes, Text.byteLength, OffsetUnit.length]
  | cons c s ih =>
    simp only [List.all_cons, Bool.and_eq_true, decide_eq_true_eq] at h
    obtain ⟨hsize, hwidth⟩ := width_of_ascii h.1 unit
    rw [Text.endedBefore_cons, Text.byteLength, hsize]
    split_ifs with hle
    · rw [unit.length_cons, hwidth, ih h.2]
      omega
    · have hzero : byte = 0 := by omega
      rw [hzero, Nat.zero_min]
      rfl

section Counting

variable {source : List Char} {unit : OffsetUnit}

theorem length_of_isDirect (h : IsDirect source unit) : unit.length source = Text.byteLength source := by
  rcases h with rfl | hascii
  · exact OffsetUnit.length_utf8 source
  · exact length_of_ascii hascii unit

end Counting

/-- Beyond the end a table gives the number of all units, but a map without one gives the byte itself. So the
offset is the length of the text only at its very end or by a table, and on a text of ASCII the map
without a table agrees with the table only up to the end. -/
theorem offset_beyond_end_iff (source : List Char) (unit : OffsetUnit) :
    (∀ byte, Text.byteLength source ≤ byte →
      ((ofText source unit).offset byte = unit.length source ↔
        if IsDirect source unit then byte = Text.byteLength source
        else unit.length source < 2 ^ 32)) ∧
    (source.all (·.toNat < 0x80) → ∀ byte,
      ((ofText source unit).offset byte = (tabled source unit).offset byte ↔
        byte ≤ Text.byteLength source ∧ byte < 2 ^ 32)) := by
  have hsize : UInt32.size = 2 ^ 32 := rfl
  constructor
  · intro byte hbyte
    by_cases hdirect : IsDirect source unit
    · rw [if_pos hdirect, offset_of_isDirect hdirect, length_of_isDirect hdirect]
    · rw [if_neg hdirect, ofText_of_not_isDirect hdirect, offset_tabled, Text.endedBefore_of_le hbyte,
        Nat.mod_eq_iff_lt (by decide), hsize]
  · intro hascii byte
    rw [offset_of_isDirect (Or.inr hascii), offset_tabled, length_endedBefore_of_ascii hascii, hsize]
    constructor
    · intro h
      have hlt := Nat.mod_lt (min byte (Text.byteLength source)) (show 0 < 2 ^ 32 by decide)
      have hle := Nat.mod_le (min byte (Text.byteLength source)) (2 ^ 32)
      omega
    · rintro ⟨hle, hlt⟩
      rw [Nat.min_eq_left hle, Nat.mod_eq_of_lt hlt]

/-- A text of one byte has one unit, but a byte beyond its end is given back as it is. -/
theorem offset_beyond_end_letter :
    Text.byteLength ['a'] ≤ 99 ∧ ['a'].all (·.toNat < 0x80) ∧
    (ofText ['a'] .utf16).offset 99 ≠ OffsetUnit.utf16.length ['a'] ∧
    (ofText ['a'] .utf16).offset 99 ≠ (tabled ['a'] .utf16).offset 99 := by
  have hbeyond : Text.byteLength ['a'] ≤ 99 := by decide
  have hascii : ['a'].all (·.toNat < 0x80) := by decide
  obtain ⟨hend, htable⟩ := offset_beyond_end_iff ['a'] .utf16
  refine ⟨hbeyond, hascii, ?_, ?_⟩
  · rw [Ne, hend 99 hbeyond]
    decide
  · rw [Ne, htable hascii 99]
    decide

section Units

/-- The number of characters above U+FFFF that lie wholly before a byte. -/
def wideBefore (source : List Char) (byte : Nat) : Nat :=
  (Text.endedBefore source byte).countP (0xFFFF < ·.toNat)

/-- A character takes one code unit of UTF-16 more than its one character exactly if it is above U+FFFF. -/
theorem length_utf16_eq_add (s : List Char) :
    OffsetUnit.utf16.length s = OffsetUnit.chars.length s + s.countP (0xFFFF < ·.toNat) := by
  induction s with
  | nil => rfl
  | cons c s ih =>
    rw [OffsetUnit.length_cons, OffsetUnit.length_cons, ih, List.countP_cons]
    simp only [OffsetUnit.width, decide_eq_true_eq]
    split_ifs <;> omega

theorem length_utf16_le_byteLength (s : List Char) : OffsetUnit.utf16.length s ≤ Text.byteLength s := by
  induction s with
  | nil => exact le_rfl
  | cons c s ih =>
    have hwidth : OffsetUnit.utf16.width c ≤ c.utf8Size := by
      have hpos := c.utf8Size_pos
      simp only [OffsetUnit.width]
      split_ifs with hlow
      · exact hpos
      · have hsize : c.utf8Size ≠ 1 := by
          intro hsize
          have hascii := UInt32.le_iff_toNat_le.1 (Char.utf8Size_eq_one_iff.1 hsize)
          exact hlow (lt_of_le_of_lt hascii (by decide))
        omega
    rw [OffsetUnit.length_cons, Text.byteLength]
    exact Nat.add_le_add hwidth ih

theorem byteLength_endedBefore_le (s : List Char) (byte : Nat) :
    Text.byteLength (Text.endedBefore s byte) ≤ byte := by
  induction s generalizing byte with
  | nil => exact Nat.zero_le _
  | cons c s ih =>
    rw [Text.endedBefore_cons]
    split_ifs with hle
    · have hrest := ih (byte - c.utf8Size)
      rw [Text.byteLength]
      omega
    · exact Nat.zero_le _

/-- How the offsets of a byte in the three units compare, also inside a character and beyond the end. -/
theorem offset_units {source : List Char} (hlen : OffsetUnit.utf16.length source < UInt32.size)
    (byte : Nat) :
    (ofText source .chars).offset byte ≤ (ofText source .utf16).offset byte ∧
      (ofText source .utf16).offset byte ≤ byte ∧
      (ofText source .utf16).offset byte =
        (ofText source .chars).offset byte + wideBefore source byte := by
  have hadd := length_utf16_eq_add (Text.endedBefore source byte)
  by_cases hascii : source.all (·.toNat < 0x80)
  · rw [offset_of_isDirect (Or.inr hascii), offset_of_isDirect (Or.inr hascii), wideBefore]
    rw [length_endedBefore_of_ascii hascii, length_endedBefore_of_ascii hascii] at hadd
    omega
  · have hchars : OffsetUnit.chars.length source < UInt32.size := by
      have hall := length_utf16_eq_add source
      omega
    have hle := (length_utf16_le_byteLength _).trans (byteLength_endedBefore_le source byte)
    rw [ofText_of_not_isDirect (by simp [IsDirect, hascii]),
      ofText_of_not_isDirect (by simp [IsDirect, hascii]), offset_tabled_of_lt hlen,
      offset_tabled_of_lt hchars, wideBefore]
    omega

end Units

end OffsetMap

end ScriptTree
