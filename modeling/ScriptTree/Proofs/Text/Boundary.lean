import Mathlib.Algebra.Order.Ring.Nat
import Mathlib.Data.List.Infix
import ScriptTree.Offset
import ScriptTree.Proofs.Text.Encoding
import ScriptTree.Text.Bytes

/-! Positions between the characters of a text. A text split at such positions is the same whether they
count bytes, code units of UTF-16 or characters. -/
namespace ScriptTree

namespace Text

@[simp] theorem byteLength_append (s t : List Char) :
    byteLength (s ++ t) = byteLength s + byteLength t := by
  induction s with
  | nil => simp [byteLength]
  | cons c s ih => simp [byteLength, ih, Nat.add_assoc]

theorem byteLength_pos {s : List Char} (h : s ≠ []) : 0 < byteLength s := by
  cases s with
  | nil => contradiction
  | cons c s =>
    have hc := c.utf8Size_pos
    simp only [byteLength]
    omega

/-- Characters of one byte each take as many bytes as there are of them. -/
theorem byteLength_eq_length {s : List Char} (h : ∀ c ∈ s, c.utf8Size = 1) : byteLength s = s.length := by
  induction s with
  | nil => rfl
  | cons c s ih =>
    rw [List.forall_mem_cons] at h
    rw [byteLength, h.1, ih h.2, List.length_cons, Nat.add_comm]

/-- Whether byte `n` of a text is where a character begins, or the end. -/
def IsBoundary (s : List Char) (n : Nat) : Prop := ∃ p, p <+: s ∧ byteLength p = n

instance (s : List Char) (n : Nat) : Decidable (IsBoundary s n) :=
  decidable_of_iff (∃ p ∈ s.inits, byteLength p = n) (by simp [IsBoundary, List.mem_inits])

/-- Two boundaries in order cut a text in three. -/
theorem IsBoundary.split {s : List Char} {a b : Nat} (ha : IsBoundary s a) (hb : IsBoundary s b)
    (hab : a ≤ b) :
    ∃ p m q, s = p ++ m ++ q ∧ byteLength p = a ∧ byteLength (p ++ m) = b := by
  obtain ⟨p, hp, rfl⟩ := ha
  obtain ⟨r, hr, rfl⟩ := hb
  obtain ⟨m, rfl⟩ : p <+: r := by
    rcases List.prefix_or_prefix_of_prefix hp hr with h | ⟨m, rfl⟩
    · exact h
    · by_cases hm : m = []
      · simp [hm]
      · have hpos := byteLength_pos hm
        rw [byteLength_append] at hab
        omega
  obtain ⟨q, rfl⟩ := hr
  exact ⟨p, m, q, rfl, rfl, rfl⟩

/-- A character takes at least one byte, and the bytes behind it are those of the rest. -/
theorem byteLength_cons (c : Char) (s : List Char) :
    ∃ n, byteLength (c :: s) = n + 1 ∧ c.utf8Size ≤ n + 1 ∧ n + 1 - c.utf8Size = byteLength s := by
  have hpos := c.utf8Size_pos
  refine ⟨c.utf8Size + byteLength s - 1, ?_, ?_, ?_⟩
  · rw [byteLength]
    omega
  · omega
  · omega

theorem dropBytes?_append (p s : List Char) : dropBytes? (byteLength p) (p ++ s) = some s := by
  induction p with
  | nil => cases s <;> rfl
  | cons c p ih =>
    obtain ⟨n, hlen, hle, hsub⟩ := byteLength_cons c p
    rw [hlen, List.cons_append, dropBytes?, if_pos hle, hsub, ih]

theorem takeBytes?_append (p s : List Char) : takeBytes? (byteLength p) (p ++ s) = some p := by
  induction p with
  | nil => cases s <;> rfl
  | cons c p ih =>
    obtain ⟨n, hlen, hle, hsub⟩ := byteLength_cons c p
    rw [hlen, List.cons_append, takeBytes?, if_pos hle, hsub, ih, Option.map_some]

theorem takeBytes?_eq_some_iff {n : Nat} {s w : List Char} :
    takeBytes? n s = some w ↔ ∃ rest, s = w ++ rest ∧ byteLength w = n := by
  constructor
  · intro h
    fun_induction takeBytes? n s generalizing w with
    | case1 s =>
      obtain rfl := Option.some.inj h
      exact ⟨s, rfl, rfl⟩
    | case2 n => contradiction
    | case3 n c s hle ih =>
      obtain ⟨v, hv, rfl⟩ := Option.map_eq_some_iff.1 h
      obtain ⟨rest, rfl, hlen⟩ := ih hv
      exact ⟨rest, rfl, by rw [byteLength, hlen]; omega⟩
    | case4 n c s hle => contradiction
  · rintro ⟨rest, rfl, rfl⟩
    exact takeBytes?_append w rest

theorem slice?_append (p m q : List Char) :
    slice? (p ++ m ++ q) (byteLength p) (byteLength (p ++ m)) = some m := by
  have hle : byteLength p ≤ byteLength (p ++ m) := by simp
  rw [slice?, if_pos hle, List.append_assoc, dropBytes?_append, Option.bind_some, byteLength_append,
    Nat.add_sub_cancel_left, takeBytes?_append]

/-- The bytes between two boundaries are the characters between them. -/
theorem slice_append (p m q : List Char) :
    slice (p ++ m ++ q) (byteLength p) (byteLength (p ++ m)) = m := by
  rw [slice, slice?_append, Option.getD_some]

theorem length_toUtf8 (s : List Char) : (toUtf8 s).length = byteLength s := by
  induction s with
  | nil => rfl
  | cons c s ih => simpa [toUtf8, byteLength] using ih

end Text

namespace OffsetUnit

def length (unit : OffsetUnit) (s : List Char) : Nat := (s.map unit.width).sum

/-- The text between two positions that count units: its code units, cut out and read back. -/
def slice? (unit : OffsetUnit) (s : List Char) (start stop : Nat) : Option (List Char) :=
  match unit with
  | .utf16 => Text.decodeUtf16? (((Text.toUtf16 s).take stop).drop start)
  | .utf8 => Text.decode? (((Text.toUtf8 s).take stop).drop start)
  | .chars => some ((s.take stop).drop start)

@[simp] theorem length_append (unit : OffsetUnit) (s t : List Char) :
    unit.length (s ++ t) = unit.length s + unit.length t := by
  simp [length]

theorem length_utf8 (s : List Char) : OffsetUnit.utf8.length s = Text.byteLength s := by
  induction s with
  | nil => rfl
  | cons c s ih => simpa [length, width, Text.byteLength] using ih

theorem length_chars (s : List Char) : OffsetUnit.chars.length s = s.length := by
  induction s with
  | nil => rfl
  | cons c s ih =>
    have hc : OffsetUnit.chars.length (c :: s) = 1 + OffsetUnit.chars.length s := by
      simp [length, width]
    rw [hc, ih, List.length_cons, Nat.add_comm]

theorem length_utf16 (s : List Char) : OffsetUnit.utf16.length s = (Text.toUtf16 s).length := by
  induction s with
  | nil => rfl
  | cons c s ih =>
    have hc : (Text.utf16Units c).length = OffsetUnit.utf16.width c := by
      simp only [Text.utf16Units, width]
      split_ifs <;> rfl
    simpa [length, Text.toUtf16, hc] using ih

private theorem drop_take_append {α : Type} (p m q : List α) :
    ((p ++ m ++ q).take (p ++ m).length).drop p.length = m := by
  rw [List.take_left, List.drop_left]

/-- Positions that count units cut out the characters between them. -/
theorem slice?_append (unit : OffsetUnit) (p m q : List Char) :
    unit.slice? (p ++ m ++ q) (unit.length p) (unit.length (p ++ m)) = some m := by
  cases unit with
  | utf16 =>
    have hu (s t : List Char) : Text.toUtf16 (s ++ t) = Text.toUtf16 s ++ Text.toUtf16 t := by
      simp [Text.toUtf16]
    simp only [slice?, length_utf16, hu, drop_take_append, Text.decodeUtf16?_toUtf16]
  | utf8 =>
    have hu (s t : List Char) : Text.toUtf8 (s ++ t) = Text.toUtf8 s ++ Text.toUtf8 t := by
      simp [Text.toUtf8]
    simp only [slice?, length_utf8, ← Text.length_toUtf8, hu, drop_take_append, Text.decode?_toUtf8]
  | chars => simp only [slice?, length_chars, drop_take_append]

end OffsetUnit

end ScriptTree
