import Mathlib.Data.List.TakeWhile
import ScriptTree.Text.Utf8

/-! The code units of a text in UTF-8 and UTF-16. What was encoded is read back unchanged, and any number
of units may follow the character that is read. -/
namespace ScriptTree.Text

def toUtf8 (s : List Char) : List UInt8 := s.flatMap String.utf8EncodeChar

/-- The code units of a character in UTF-16: itself, or a high and a low surrogate. -/
def utf16Units (c : Char) : List UInt16 :=
  if c.toNat < 0x10000 then [UInt16.ofNat c.toNat]
  else [UInt16.ofNat (0xD800 + (c.toNat - 0x10000) / 0x400),
    UInt16.ofNat (0xDC00 + (c.toNat - 0x10000) % 0x400)]

def toUtf16 (s : List Char) : List UInt16 := s.flatMap utf16Units

def isHighSurrogate (u : UInt16) : Bool := 0xD800 ≤ u.toNat && u.toNat < 0xDC00

def isLowSurrogate (u : UInt16) : Bool := 0xDC00 ≤ u.toNat && u.toNat < 0xE000

/-- The text that code units of UTF-16 spell, unless a surrogate has no partner. -/
def decodeUtf16? : List UInt16 → Option (List Char)
  | [] => some []
  | u :: us =>
    if isHighSurrogate u then
      match us with
      | [] => none
      | v :: vs =>
        if isLowSurrogate v then
          (decodeUtf16? vs).map
            (Char.ofNat (0x10000 + (u.toNat - 0xD800) * 0x400 + (v.toNat - 0xDC00)) :: ·)
        else none
    else if isLowSurrogate u then none
    else (decodeUtf16? us).map (Char.ofNat u.toNat :: ·)

/-- Characters are no surrogates and end at the last plane. -/
theorem toNat_scalar (c : Char) :
    c.toNat < 0x110000 ∧ ¬(0xD800 ≤ c.toNat ∧ c.toNat < 0xE000) := by
  have h : c.toNat.isValidChar := c.valid
  unfold Nat.isValidChar at h
  omega

/-- Two code units of one character are a high and a low surrogate that number it together. -/
theorem surrogates_of_utf16Units {c : Char} {u v : UInt16} (h : utf16Units c = [u, v]) :
    (0xD800 ≤ u.toNat ∧ u.toNat < 0xDC00) ∧ (0xDC00 ≤ v.toNat ∧ v.toNat < 0xE000) ∧
      0x10000 + (u.toNat - 0xD800) * 0x400 + (v.toNat - 0xDC00) = c.toNat := by
  have hlt := (toNat_scalar c).1
  unfold utf16Units at h
  split_ifs at h with hbasic
  · simp at h
  · simp only [List.cons.injEq, and_true] at h
    obtain ⟨rfl, rfl⟩ := h
    have hu : (UInt16.ofNat (0xD800 + (c.toNat - 0x10000) / 0x400)).toNat =
        0xD800 + (c.toNat - 0x10000) / 0x400 :=
      UInt16.toNat_ofNat_of_lt (show _ < 0x10000 by omega)
    have hv : (UInt16.ofNat (0xDC00 + (c.toNat - 0x10000) % 0x400)).toNat =
        0xDC00 + (c.toNat - 0x10000) % 0x400 :=
      UInt16.toNat_ofNat_of_lt (show _ < 0x10000 by omega)
    rw [hu, hv]
    omega

theorem decodeUtf16?_units (c : Char) (us : List UInt16) :
    decodeUtf16? (utf16Units c ++ us) = (decodeUtf16? us).map (c :: ·) := by
  by_cases h : c.toNat < 0x10000
  · have hs := (toNat_scalar c).2
    have hu : (UInt16.ofNat c.toNat).toNat = c.toNat := UInt16.toNat_ofNat_of_lt h
    have hh : isHighSurrogate (UInt16.ofNat c.toNat) = false := by
      simp only [isHighSurrogate, hu, Bool.and_eq_false_iff, decide_eq_false_iff_not]
      omega
    have hl : isLowSurrogate (UInt16.ofNat c.toNat) = false := by
      simp only [isLowSurrogate, hu, Bool.and_eq_false_iff, decide_eq_false_iff_not]
      omega
    rw [utf16Units, if_pos h, List.singleton_append, decodeUtf16?.eq_def]
    simp [hh, hl, hu]
  · obtain ⟨u, v, huv⟩ : ∃ u v, utf16Units c = [u, v] := ⟨_, _, if_neg h⟩
    obtain ⟨hu, hv, hc⟩ := surrogates_of_utf16Units huv
    have hh : isHighSurrogate u = true := by simp [isHighSurrogate, hu]
    have hl : isLowSurrogate v = true := by simp [isLowSurrogate, hv]
    simp only [huv, List.cons_append, List.nil_append, decodeUtf16?, hh, hl, hc, if_true,
      Char.ofNat_toNat]

theorem decodeUtf16?_toUtf16 (s : List Char) : decodeUtf16? (toUtf16 s) = some s := by
  induction s with
  | nil => rfl
  | cons c s ih =>
    have hcons : toUtf16 (c :: s) = utf16Units c ++ toUtf16 s := rfl
    rw [hcons, decodeUtf16?_units, ih, Option.map_some]

/-- A lead and the bytes it announces, the first of them in its own range, with the number of a
character put together from them. -/
structure Encodes (c : Char) (lead lo hi b : UInt8) (tail : List UInt8) : Prop where
  beyond : 0x80 ≤ lead.toNat
  announced : continuation? lead = some (tail.length + 1, lo, hi)
  first : lo.toNat ≤ b.toNat ∧ b.toNat ≤ hi.toNat
  further : ∀ x ∈ tail, 0x80 ≤ x.toNat ∧ x.toNat ≤ 0xBF
  code : codePoint lead (b :: tail) = c.toNat

theorem Encodes.decodeFirst {c : Char} {lead lo hi b : UInt8} {tail : List UInt8}
    (h : Encodes c lead lo hi b tail) (rest : List UInt8) :
    decodeFirst lead (b :: tail ++ rest) = (some c, (b :: tail).length) := by
  obtain ⟨hlead, hn, hb, htail, hcode⟩ := h
  have h80 : ¬lead < 0x80 := by simpa [UInt8.lt_iff_toNat_lt] using hlead
  have htake : (tail ++ rest).take (tail.length + 1 - 1) = tail := by
    rw [List.take_append_of_le_length (by omega), List.take_of_length_le (by omega)]
  have hall : ∀ x ∈ tail, isContinuation x := by
    intro x hx
    simpa [isContinuation, UInt8.le_iff_toNat_le] using htail x hx
  have hcont : continued (tail.length + 1) lo hi (b :: (tail ++ rest)) = b :: tail := by
    simp only [continued, UInt8.le_iff_toNat_le, hb, decide_true, Bool.and_self, if_true, htake]
    rw [List.takeWhile_eq_self_iff.2 hall]
  simp [Text.decodeFirst, h80, hn, hcont, hcode]

theorem continuation?_eq (lead : UInt8) :
    continuation? lead =
      if 0xC2 ≤ lead.toNat ∧ lead.toNat ≤ 0xDF then some (1, 0x80, 0xBF)
      else if lead.toNat = 0xE0 then some (2, 0xA0, 0xBF)
      else if lead.toNat = 0xED then some (2, 0x80, 0x9F)
      else if 0xE1 ≤ lead.toNat ∧ lead.toNat ≤ 0xEF then some (2, 0x80, 0xBF)
      else if lead.toNat = 0xF0 then some (3, 0x90, 0xBF)
      else if 0xF1 ≤ lead.toNat ∧ lead.toNat ≤ 0xF3 then some (3, 0x80, 0xBF)
      else if lead.toNat = 0xF4 then some (3, 0x80, 0x8F)
      else none := by
  simp [continuation?, UInt8.le_iff_toNat_le, ← UInt8.toNat_inj]

/-- The ranges after `E0` and `ED` leave out short forms and surrogates. -/
theorem continuation?_three {lead : UInt8} (h : 0xE0 ≤ lead.toNat ∧ lead.toNat ≤ 0xEF) :
    continuation? lead = some (2, if lead.toNat = 0xE0 then 0xA0 else 0x80,
      if lead.toNat = 0xED then 0x9F else 0xBF) := by
  rw [continuation?_eq]
  split_ifs <;> first | rfl | omega

/-- The ranges after `F0` and `F4` leave out short forms and numbers beyond the last plane. -/
theorem continuation?_four {lead : UInt8} (h : 0xF0 ≤ lead.toNat ∧ lead.toNat ≤ 0xF4) :
    continuation? lead = some (3, if lead.toNat = 0xF0 then 0x90 else 0x80,
      if lead.toNat = 0xF4 then 0x8F else 0xBF) := by
  rw [continuation?_eq]
  split_ifs <;> first | rfl | omega

private theorem toNat_byte {n : Nat} (h : n < 0x100) : (UInt8.ofNat n).toNat = n :=
  UInt8.toNat_ofNat_of_lt' h

theorem encodes_two {c : Char} (h : 0x80 ≤ c.toNat ∧ c.toNat ≤ 0x7FF) :
    Encodes c (UInt8.ofNat (c.toNat / 64 % 0x20 + 0xC0)) 0x80 0xBF
      (UInt8.ofNat (c.toNat % 0x40 + 0x80)) [] := by
  have hl := toNat_byte (n := c.toNat / 64 % 0x20 + 0xC0) (by omega)
  have hb := toNat_byte (n := c.toNat % 0x40 + 0x80) (by omega)
  refine ⟨by omega, ?_, ?_, nofun, ?_⟩
  · rw [continuation?_eq, hl, if_pos (by omega)]
    rfl
  · simp only [hb, UInt8.reduceToNat]
    omega
  · simp only [codePoint, List.length_cons, List.length_nil, List.foldl_cons, List.foldl_nil, hl, hb]
    omega

theorem encodes_three {c : Char} (h : 0x800 ≤ c.toNat ∧ c.toNat ≤ 0xFFFF) :
    ∃ lo hi, Encodes c (UInt8.ofNat (c.toNat / 4096 % 0x10 + 0xE0)) lo hi
      (UInt8.ofNat (c.toNat / 64 % 0x40 + 0x80)) [UInt8.ofNat (c.toNat % 0x40 + 0x80)] := by
  obtain ⟨-, hscalar⟩ := toNat_scalar c
  have hl := toNat_byte (n := c.toNat / 4096 % 0x10 + 0xE0) (by omega)
  have hb := toNat_byte (n := c.toNat / 64 % 0x40 + 0x80) (by omega)
  have hx := toNat_byte (n := c.toNat % 0x40 + 0x80) (by omega)
  refine ⟨_, _, by omega, continuation?_three (by omega), ?_, ?_, ?_⟩
  · rw [hl, hb]
    split_ifs <;> simp only [UInt8.reduceToNat] <;> omega
  · simp only [List.mem_singleton, forall_eq, hx]
    omega
  · simp only [codePoint, List.length_cons, List.length_nil, List.foldl_cons, List.foldl_nil, hl, hb, hx]
    omega

theorem encodes_four {c : Char} (h : 0x10000 ≤ c.toNat) :
    ∃ lo hi, Encodes c (UInt8.ofNat (c.toNat / 262144 % 0x08 + 0xF0)) lo hi
      (UInt8.ofNat (c.toNat / 4096 % 0x40 + 0x80))
      [UInt8.ofNat (c.toNat / 64 % 0x40 + 0x80), UInt8.ofNat (c.toNat % 0x40 + 0x80)] := by
  obtain ⟨hplane, -⟩ := toNat_scalar c
  have hl := toNat_byte (n := c.toNat / 262144 % 0x08 + 0xF0) (by omega)
  have hb := toNat_byte (n := c.toNat / 4096 % 0x40 + 0x80) (by omega)
  have hx := toNat_byte (n := c.toNat / 64 % 0x40 + 0x80) (by omega)
  have hy := toNat_byte (n := c.toNat % 0x40 + 0x80) (by omega)
  refine ⟨_, _, by omega, continuation?_four (by omega), ?_, ?_, ?_⟩
  · rw [hl, hb]
    split_ifs <;> simp only [UInt8.reduceToNat] <;> omega
  · simp only [List.mem_cons, List.not_mem_nil, or_false, forall_eq_or_imp, forall_eq, hx, hy]
    omega
  · simp only [codePoint, List.length_cons, List.length_nil, List.foldl_cons, List.foldl_nil, hl, hb, hx,
      hy]
    omega

/-- An encoded character is a single byte, or a lead with the bytes that it announces. -/
theorem encoded_cases {c : Char} {lead : UInt8} {tail : List UInt8}
    (h : String.utf8EncodeChar c = lead :: tail) :
    (lead.toNat < 0x80 ∧ lead.toNat = c.toNat ∧ tail = []) ∨
      ∃ lo hi b more, tail = b :: more ∧ Encodes c lead lo hi b more := by
  have hval : c.val.toNat = c.toNat := rfl
  simp only [String.utf8EncodeChar, hval] at h
  split_ifs at h with h1 h2 h3
  all_goals
    simp only [List.cons.injEq] at h
    obtain ⟨rfl, rfl⟩ := h
  · have hl := toNat_byte (n := c.toNat) (by omega)
    exact Or.inl ⟨by omega, hl, rfl⟩
  · exact Or.inr ⟨_, _, _, _, rfl, encodes_two (by omega)⟩
  · obtain ⟨lo, hi, hencodes⟩ := encodes_three (c := c) (by omega)
    exact Or.inr ⟨lo, hi, _, _, rfl, hencodes⟩
  · obtain ⟨lo, hi, hencodes⟩ := encodes_four (c := c) (by omega)
    exact Or.inr ⟨lo, hi, _, _, rfl, hencodes⟩

/-- An encoded character is found again, whatever follows it. -/
theorem decodeFirst_encoded {c : Char} {lead : UInt8} {tail : List UInt8}
    (h : String.utf8EncodeChar c = lead :: tail) (rest : List UInt8) :
    decodeFirst lead (tail ++ rest) = (some c, tail.length) := by
  rcases encoded_cases h with ⟨hascii, hcode, rfl⟩ | ⟨lo, hi, b, more, rfl, hencodes⟩
  · have h80 : lead < 0x80 := by
      rw [UInt8.lt_iff_toNat_lt]
      exact hascii
    simp [decodeFirst, h80, hcode]
  · exact hencodes.decodeFirst rest

theorem decode?_encoded (c : Char) (rest : List UInt8) :
    decode? (String.utf8EncodeChar c ++ rest) = (decode? rest).map (c :: ·) := by
  obtain ⟨lead, tail, h⟩ := List.exists_cons_of_ne_nil (String.utf8EncodeChar_ne_nil (c := c))
  rw [h, List.cons_append, decode?, decodeFirst_encoded h]
  simp

theorem decode?_toUtf8 (s : List Char) : decode? (toUtf8 s) = some s := by
  induction s with
  | nil => simp [toUtf8, decode?]
  | cons c s ih =>
    have hcons : toUtf8 (c :: s) = String.utf8EncodeChar c ++ toUtf8 s := rfl
    rw [hcons, decode?_encoded, ih, Option.map_some]

end ScriptTree.Text
