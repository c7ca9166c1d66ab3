import Mathlib.Data.List.Basic
import ScriptTree.Proofs.Text.Encoding

/-! What is decoded is what was encoded: bytes that are text have no other text, and all other bytes are
refused. -/
namespace ScriptTree.Text

private theorem ofNat_eq_byte {n : Nat} {b : UInt8} (h : n = b.toNat) : UInt8.ofNat n = b := by
  rw [h, UInt8.ofNat_toNat]

/-- As many bytes as announced: they stand at the front and are all in their ranges. -/
theorem continued_eq_take {n : Nat} {lo hi : UInt8} {rest : List UInt8} (hn : 0 < n)
    (h : (continued n lo hi rest).length = n) :
    ∃ b tail, continued n lo hi rest = b :: tail ∧ rest.take n = b :: tail ∧
      (lo.toNat ≤ b.toNat ∧ b.toNat ≤ hi.toNat) ∧ ∀ x ∈ tail, 0x80 ≤ x.toNat ∧ x.toNat ≤ 0xBF := by
  unfold continued at h ⊢
  cases rest with
  | nil => simp at h; omega
  | cons b rest =>
    dsimp only at h ⊢
    split_ifs at h ⊢ with hb
    · have hlen : ((rest.take (n - 1)).takeWhile isContinuation).length = n - 1 := by
        simp only [List.length_cons] at h
        omega
      have hfront := List.takeWhile_prefix (l := rest.take (n - 1)) isContinuation
      have hall : (rest.take (n - 1)).takeWhile isContinuation = rest.take (n - 1) := by
        refine hfront.eq_of_length_le ?_
        rw [hlen]
        exact List.length_take_le (n - 1) rest
      refine ⟨b, _, rfl, ?_, ?_, ?_⟩
      · rw [hall, ← List.take_succ_cons, Nat.sub_add_cancel hn]
      · simpa [UInt8.le_iff_toNat_le] using hb
      · intro x hx
        rw [List.takeWhile_eq_self_iff] at hall
        have hx := hall x (hfront.subset hx)
        simpa [isContinuation, UInt8.le_iff_toNat_le] using hx
    · simp at h
      omega

theorem toNat_ofNat_of_valid {n : Nat} (h : n.isValidChar) : (Char.ofNat n).toNat = n := by
  rw [Char.ofNat, dif_pos h]
  rfl

section Reencode

variable {lead b x y : UInt8} (hb : 0x80 ≤ b.toNat ∧ b.toNat ≤ 0xBF)
  (hx : 0x80 ≤ x.toNat ∧ x.toNat ≤ 0xBF) (hy : 0x80 ≤ y.toNat ∧ y.toNat ≤ 0xBF)

include hb in
theorem utf8EncodeChar_two (hlead : 0xC2 ≤ lead.toNat ∧ lead.toNat ≤ 0xDF) :
    String.utf8EncodeChar (Char.ofNat (codePoint lead [b])) = [lead, b] := by
  have hval (c : Char) : c.val.toNat = c.toNat := rfl
  have hcode : codePoint lead [b] = lead.toNat % 0x20 * 0x40 + b.toNat % 0x40 := rfl
  have htoNat := toNat_ofNat_of_valid (n := codePoint lead [b]) (Or.inl (by omega))
  simp only [String.utf8EncodeChar, hval, htoNat]
  rw [if_neg (by omega), if_pos (by omega), ofNat_eq_byte (b := lead) (by omega),
    ofNat_eq_byte (b := b) (by omega)]

include hb hx in
theorem utf8EncodeChar_three (hlead : 0xE0 ≤ lead.toNat ∧ lead.toNat ≤ 0xEF)
    (hlow : lead.toNat = 0xE0 → 0xA0 ≤ b.toNat) (hhigh : lead.toNat = 0xED → b.toNat ≤ 0x9F) :
    String.utf8EncodeChar (Char.ofNat (codePoint lead [b, x])) = [lead, b, x] := by
  have hval (c : Char) : c.val.toNat = c.toNat := rfl
  have hcode : codePoint lead [b, x] =
      (lead.toNat % 0x10 * 0x40 + b.toNat % 0x40) * 0x40 + x.toNat % 0x40 := rfl
  have hvalid : (codePoint lead [b, x]).isValidChar := by
    unfold Nat.isValidChar
    omega
  have htoNat := toNat_ofNat_of_valid hvalid
  simp only [String.utf8EncodeChar, hval, htoNat]
  rw [if_neg (by omega), if_neg (by omega), if_pos (by omega), ofNat_eq_byte (b := lead) (by omega),
    ofNat_eq_byte (b := b) (by omega), ofNat_eq_byte (b := x) (by omega)]

include hb hx hy in
theorem utf8EncodeChar_four (hlead : 0xF0 ≤ lead.toNat ∧ lead.toNat ≤ 0xF4)
    (hlow : lead.toNat = 0xF0 → 0x90 ≤ b.toNat) (hhigh : lead.toNat = 0xF4 → b.toNat ≤ 0x8F) :
    String.utf8EncodeChar (Char.ofNat (codePoint lead [b, x, y])) = [lead, b, x, y] := by
  have hval (c : Char) : c.val.toNat = c.toNat := rfl
  have hcode : codePoint lead [b, x, y] =
      ((lead.toNat % 0x08 * 0x40 + b.toNat % 0x40) * 0x40 + x.toNat % 0x40) * 0x40 +
        y.toNat % 0x40 := rfl
  have hvalid : (codePoint lead [b, x, y]).isValidChar := by
    unfold Nat.isValidChar
    omega
  have htoNat := toNat_ofNat_of_valid hvalid
  simp only [String.utf8EncodeChar, hval, htoNat]
  rw [if_neg (by omega), if_neg (by omega), if_neg (by omega), ofNat_eq_byte (b := lead) (by omega),
    ofNat_eq_byte (b := b) (by omega), ofNat_eq_byte (b := x) (by omega),
    ofNat_eq_byte (b := y) (by omega)]

end Reencode

/-- What a lead can announce: so many bytes, and a range for the first of them. -/
theorem continuation?_cases {lead lo hi : UInt8} {n : Nat}
    (h : continuation? lead = some (n, lo, hi)) :
    0x80 ≤ lo.toNat ∧ hi.toNat ≤ 0xBF ∧
      (n = 1 ∧ (0xC2 ≤ lead.toNat ∧ lead.toNat ≤ 0xDF) ∨
        n = 2 ∧ (0xE0 ≤ lead.toNat ∧ lead.toNat ≤ 0xEF) ∧
          (lead.toNat = 0xE0 → lo.toNat = 0xA0) ∧ (lead.toNat = 0xED → hi.toNat = 0x9F) ∨
        n = 3 ∧ (0xF0 ≤ lead.toNat ∧ lead.toNat ≤ 0xF4) ∧
          (lead.toNat = 0xF0 → lo.toNat = 0x90) ∧ (lead.toNat = 0xF4 → hi.toNat = 0x8F)) := by
  rw [continuation?_eq] at h
  split_ifs at h
  all_goals
    simp only [Option.some.injEq, Prod.mk.injEq] at h
    obtain ⟨rfl, rfl, rfl⟩ := h
    refine ⟨by decide, by decide, ?_⟩
    simp only [UInt8.reduceToNat]
    grind

/-- The bytes that a lead announces are those in which their character is encoded. -/
theorem utf8EncodeChar_codePoint {lead lo hi b : UInt8} {tail : List UInt8}
    (hn : continuation? lead = some (tail.length + 1, lo, hi))
    (hb : lo.toNat ≤ b.toNat ∧ b.toNat ≤ hi.toNat)
    (htail : ∀ x ∈ tail, 0x80 ≤ x.toNat ∧ x.toNat ≤ 0xBF) :
    String.utf8EncodeChar (Char.ofNat (codePoint lead (b :: tail))) = lead :: b :: tail := by
  obtain ⟨hlo, hhi, ⟨hlen, hlead⟩ | ⟨hlen, hlead, hlow, hhigh⟩ | ⟨hlen, hlead, hlow, hhigh⟩⟩ :=
    continuation?_cases hn
  · obtain rfl := List.eq_nil_of_length_eq_zero (Nat.succ.inj hlen)
    exact utf8EncodeChar_two (by omega) hlead
  · obtain ⟨x, rfl⟩ := List.length_eq_one_iff.1 (Nat.succ.inj hlen)
    have hx := htail x (by simp)
    exact utf8EncodeChar_three (by omega) hx hlead (by omega) (by omega)
  · obtain ⟨x, y, rfl⟩ := List.length_eq_two.1 (Nat.succ.inj hlen)
    have hx := htail x (by simp)
    have hy := htail y (by simp)
    exact utf8EncodeChar_four (by omega) hx hy hlead (by omega) (by omega)

/-- A character that is found at the front stands there encoded. -/
theorem encoded_of_decodeFirst {lead : UInt8} {rest : List UInt8} {c : Char} {n : Nat}
    (h : decodeFirst lead rest = (some c, n)) : String.utf8EncodeChar c = lead :: rest.take n := by
  unfold decodeFirst at h
  split_ifs at h with hascii
  · obtain ⟨hc, rfl⟩ := Prod.mk.inj h
    obtain rfl := Option.some.inj hc
    rw [UInt8.lt_iff_toNat_lt] at hascii
    have hlt : lead.toNat < 0x80 := hascii
    have htoNat := toNat_ofNat_of_valid (n := lead.toNat) (Or.inl (by omega))
    have hval : (Char.ofNat lead.toNat).val.toNat = lead.toNat := htoNat
    simp only [String.utf8EncodeChar, hval]
    rw [if_pos (by omega), UInt8.ofNat_toNat, List.take_zero]
  · cases hlead : continuation? lead with
    | none => simp [hlead] at h
    | some announced =>
      obtain ⟨m, lo, hi⟩ := announced
      simp only [hlead] at h
      split_ifs at h with hlen
      · obtain ⟨hc, rfl⟩ := Prod.mk.inj h
        obtain rfl := Option.some.inj hc
        have hpos : 0 < m := by
          have := continuation?_cases hlead
          omega
        obtain ⟨b, tail, hcont, htake, hb, htail⟩ := continued_eq_take hpos hlen
        rw [hcont, List.length_cons] at hlen
        rw [hcont, htake]
        exact utf8EncodeChar_codePoint (by rw [hlead, hlen]) hb htail
      · simp at h

theorem decode?_eq_some_iff {bytes : List UInt8} {s : List Char} :
    decode? bytes = some s ↔ bytes = toUtf8 s := by
  constructor
  · intro h
    fun_induction decode? bytes generalizing s with
    | case1 =>
      obtain rfl := Option.some.inj h
      rfl
    | case2 lead rest c n hfirst ih =>
      obtain ⟨s, hs, rfl⟩ := Option.map_eq_some_iff.1 h
      have hcons : toUtf8 (c :: s) = String.utf8EncodeChar c ++ toUtf8 s := rfl
      rw [hcons, ← ih hs, encoded_of_decodeFirst hfirst, List.cons_append, List.take_append_drop]
    | case3 => contradiction
  · rintro rfl
    exact decode?_toUtf8 s

end ScriptTree.Text
