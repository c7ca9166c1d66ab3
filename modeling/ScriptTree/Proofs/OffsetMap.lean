import ScriptTree.Proofs.Text.Boundary

/-! The offset of a byte is the number of units of the characters that end before it. So the offset of a
boundary is the number of units before it, and later bytes have no smaller offsets. -/
namespace ScriptTree

namespace Text

/-- The characters of a text that begins at byte `start`, each with its last byte. -/
def lastBytes : Nat → List Char → List (Char × Nat)
  | _, [] => []
  | start, c :: s => (c, start + c.utf8Size - 1) :: lastBytes (start + c.utf8Size) s

/-- The characters whose last byte lies before the given one. -/
def endedBefore (s : List Char) (byte : Nat) : List Char :=
  ((lastBytes 0 s).filter (·.2 < byte)).map (·.1)

theorem lastBytes_add (k start : Nat) (s : List Char) :
    lastBytes (k + start) s = (lastBytes start s).map fun p => (p.1, k + p.2) := by
  induction s generalizing start with
  | nil => rfl
  | cons c s ih =>
    have hpos := c.utf8Size_pos
    have hlast : k + start + c.utf8Size - 1 = k + (start + c.utf8Size - 1) := by omega
    rw [lastBytes, lastBytes, List.map_cons, hlast, Nat.add_assoc, ih]

theorem le_of_mem_lastBytes {start : Nat} {s : List Char} {p : Char × Nat}
    (h : p ∈ lastBytes start s) : start ≤ p.2 := by
  induction s generalizing start with
  | nil => simp [lastBytes] at h
  | cons c s ih =>
    have hpos := c.utf8Size_pos
    rcases List.mem_cons.1 h with rfl | h
    · exact Nat.le_sub_one_of_lt (by omega)
    · exact Nat.le_of_add_right_le (ih h)

theorem endedBefore_cons (c : Char) (s : List Char) (byte : Nat) :
    endedBefore (c :: s) byte =
      if c.utf8Size ≤ byte then c :: endedBefore s (byte - c.utf8Size) else [] := by
  have hpos := c.utf8Size_pos
  have hshift := lastBytes_add c.utf8Size 0 s
  rw [Nat.add_zero] at hshift
  unfold endedBefore
  rw [lastBytes, Nat.zero_add]
  split_ifs with hle
  · have hfirst : c.utf8Size - 1 < byte := by omega
    have hrest : (fun p : Char × Nat => decide (c.utf8Size + p.2 < byte)) =
        fun p => decide (p.2 < byte - c.utf8Size) := by
      funext p
      exact decide_eq_decide.2 (by omega)
    rw [List.filter_cons_of_pos (by simpa using hfirst), hshift, List.filter_map, List.map_cons,
      List.map_map]
    simp only [Function.comp_def, hrest]
  · -- A character that has not ended has none behind it that has.
    have hfirst : ¬c.utf8Size - 1 < byte := by omega
    rw [List.filter_cons_of_neg (by simpa using hfirst), List.map_eq_nil_iff, List.filter_eq_nil_iff]
    intro p hp hlt
    have hle := le_of_mem_lastBytes hp
    have hlt := of_decide_eq_true hlt
    omega

theorem endedBefore_append (p q : List Char) (byte : Nat) :
    endedBefore (p ++ q) (byteLength p + byte) = p ++ endedBefore q byte := by
  induction p with
  | nil => simp [byteLength]
  | cons c p ih =>
    have hle : c.utf8Size ≤ c.utf8Size + byteLength p + byte := by omega
    have hsub : c.utf8Size + byteLength p + byte - c.utf8Size = byteLength p + byte := by omega
    rw [List.cons_append, byteLength, endedBefore_cons, if_pos hle, hsub, ih, List.cons_append]

theorem endedBefore_zero (s : List Char) : endedBefore s 0 = [] := by
  simp [endedBefore]

theorem endedBefore_of_le {s : List Char} {byte : Nat} (h : byteLength s ≤ byte) :
    endedBefore s byte = s := by
  have happend := endedBefore_append s [] (byte - byteLength s)
  rw [List.append_nil, Nat.add_sub_cancel' h] at happend
  simpa [endedBefore, lastBytes] using happend

end Text

theorem OffsetUnit.length_cons (unit : OffsetUnit) (c : Char) (s : List Char) :
    unit.length (c :: s) = unit.width c + unit.length s := by
  simp [OffsetUnit.length]

namespace OffsetMap

/-- The map with its table, built for any text. -/
def tabled (source : List Char) (unit : OffsetUnit) : OffsetMap :=
  ⟨some (entries unit 0 source).toArray⟩

/-- Whether bytes are taken for units as they are. -/
def IsDirect (source : List Char) (unit : OffsetUnit) : Prop :=
  unit = .utf8 ∨ source.all (·.toNat < 0x80)

instance (source : List Char) (unit : OffsetUnit) : Decidable (IsDirect source unit) :=
  inferInstanceAs (Decidable (_ ∨ _))

theorem length_entries (unit : OffsetUnit) (units : UInt32) (s : List Char) :
    (entries unit units s).length = Text.byteLength s + 1 := by
  induction s generalizing units with
  | nil => rfl
  | cons c s ih => simp [entries, Text.byteLength, ih, Nat.add_assoc]

theorem width_of_ascii {c : Char} (h : c.toNat < 0x80) (unit : OffsetUnit) :
    c.utf8Size = 1 ∧ unit.width c = 1 := by
  have hsize : c.utf8Size = 1 := Char.utf8Size_eq_one_iff.2 (UInt32.le_iff_toNat_le.2
    (show c.toNat ≤ 127 by omega))
  refine ⟨hsize, ?_⟩
  cases unit with
  | utf16 => simp only [OffsetUnit.width]; rw [if_pos (by omega)]
  | utf8 => exact hsize
  | chars => rfl

theorem length_of_ascii {s : List Char} (h : s.all (·.toNat < 0x80)) (unit : OffsetUnit) :
    unit.length s = Text.byteLength s := by
  induction s with
  | nil => rfl
  | cons c s ih =>
    simp only [List.all_cons, Bool.and_eq_true, decide_eq_true_eq] at h
    obtain ⟨hsize, hwidth⟩ := width_of_ascii h.1 unit
    have hs := ih h.2
    simp only [OffsetUnit.length, List.map_cons, List.sum_cons, Text.byteLength] at hs ⊢
    omega

/-- The entry of a byte, or the last one, is the sum of the units of the characters that end before it. -/
theorem getElem?_entries (unit : OffsetUnit) (units : UInt32) (s : List Char) (byte : Nat) :
    (entries unit units s)[min byte (Text.byteLength s)]? =
      some (units + UInt32.ofNat (unit.length (Text.endedBefore s byte))) := by
  induction s generalizing units byte with
  | nil => simp [entries, Text.byteLength, Text.endedBefore, Text.lastBytes, OffsetUnit.length]
  | cons c s ih =>
    rw [entries, Text.endedBefore_cons, Text.byteLength]
    split_ifs with hle
    · have hmin : min byte (c.utf8Size + Text.byteLength s) =
          c.utf8Size + min (byte - c.utf8Size) (Text.byteLength s) := by omega
      rw [hmin, List.getElem?_append_right (by simp), List.length_replicate, Nat.add_sub_cancel_left,
        ih, unit.length_cons, UInt32.ofNat_add, UInt32.add_assoc]
    · have hmin : min byte (c.utf8Size + Text.byteLength s) = byte := by omega
      have hlt : byte < c.utf8Size := by omega
      rw [hmin, List.getElem?_append_left (by simpa using hlt), List.getElem?_replicate, if_pos hlt]
      simp [OffsetUnit.length]

variable {source : List Char} {unit : OffsetUnit}

/-- What a table gives for any byte: the units of the characters that end before it, in thirty-two bits. -/
theorem offset_tabled (source : List Char) (unit : OffsetUnit) (byte : Nat) :
    (tabled source unit).offset byte =
      unit.length (Text.endedBefore source byte) % UInt32.size := by
  have hsize : (entries unit 0 source).toArray.size = Text.byteLength source + 1 :=
    length_entries unit 0 source
  have hentry := getElem?_entries unit 0 source byte
  simp only [offset, tabled, hsize, Nat.add_sub_cancel, Array.getD_eq_getD_getElem?,
    List.getElem?_toArray, hentry, Option.getD_some, UInt32.zero_add]
  exact UInt32.toNat_ofNat'

theorem offset_of_isDirect (h : IsDirect source unit) (byte : Nat) :
    (ofText source unit).offset byte = byte := by
  have hmap : ofText source unit = ⟨none⟩ := if_pos h
  rw [hmap]
  rfl

theorem ofText_of_not_isDirect (h : ¬IsDirect source unit) : ofText source unit = tabled source unit :=
  if_neg h

/-- More characters have ended before a later byte. -/
theorem length_endedBefore_mono (unit : OffsetUnit) (s : List Char) {a b : Nat} (h : a ≤ b) :
    unit.length (Text.endedBefore s a) ≤ unit.length (Text.endedBefore s b) := by
  induction s generalizing a b with
  | nil => exact Nat.le_refl _
  | cons c s ih =>
    rw [Text.endedBefore_cons, Text.endedBefore_cons]
    by_cases ha : c.utf8Size ≤ a
    · have hrest := ih (Nat.sub_le_sub_right h c.utf8Size)
      rw [if_pos ha, if_pos (ha.trans h), unit.length_cons, unit.length_cons]
      omega
    · rw [if_neg ha]
      exact Nat.zero_le _

/-- While the units of a text can be counted in thirty-two bits, a table counts them. -/
theorem offset_tabled_of_lt (h : unit.length source < UInt32.size) (byte : Nat) :
    (tabled source unit).offset byte = unit.length (Text.endedBefore source byte) := by
  have hall := Text.endedBefore_of_le (Nat.le_max_right byte (Text.byteLength source))
  have hle := length_endedBefore_mono unit source (Nat.le_max_left byte (Text.byteLength source))
  rw [hall] at hle
  rw [offset_tabled]
  exact Nat.mod_eq_of_lt (by omega)

/-- At a boundary the map gives the number of units before it, unless the text has more units than
thirty-two bits can count. -/
theorem offset_boundary {unit : OffsetUnit} {p q : List Char}
    (h : unit.length (p ++ q) < UInt32.size) :
    (ofText (p ++ q) unit).offset (Text.byteLength p) = unit.length p := by
  by_cases hdirect : IsDirect (p ++ q) unit
  · rw [offset_of_isDirect hdirect]
    rcases hdirect with rfl | hascii
    · exact (OffsetUnit.length_utf8 p).symm
    · rw [List.all_append, Bool.and_eq_true] at hascii
      exact (length_of_ascii hascii.1 unit).symm
  · have hended := Text.endedBefore_append p q 0
    rw [Nat.add_zero, Text.endedBefore_zero, List.append_nil] at hended
    rw [ofText_of_not_isDirect hdirect, offset_tabled_of_lt h, hended]

/-- A later byte never has a smaller offset, also inside a character and beyond the end. -/
theorem monotone_offset {source : List Char} {unit : OffsetUnit}
    (h : unit.length source < UInt32.size) : Monotone (ofText source unit).offset := by
  intro a b hab
  by_cases hdirect : IsDirect source unit
  · rw [offset_of_isDirect hdirect, offset_of_isDirect hdirect]
    exact hab
  · rw [ofText_of_not_isDirect hdirect, offset_tabled_of_lt h, offset_tabled_of_lt h]
    exact length_endedBefore_mono unit source hab

end OffsetMap

end ScriptTree
