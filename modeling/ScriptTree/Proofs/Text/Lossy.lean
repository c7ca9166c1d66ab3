import ScriptTree.Proofs.Text.Decoding

/-! Decoding bytes that need not be text. Every character that stands there encoded is kept, and each maximal
invalid part gives one replacement character. -/
namespace ScriptTree.Text

/-- Whether bytes are the beginning of an encoded character. -/
def BeginsCharacter (bytes : List UInt8) : Prop := ∃ c, bytes <+: String.utf8EncodeChar c

/-- Whether `part` is a maximal invalid part with `rest` behind it: no character stands there, and it is the
longest beginning of one, or a single byte if there is none. -/
structure InvalidPart (part rest : List UInt8) : Prop where
  nonempty : part ≠ []
  noCharacter : ∀ c, ¬String.utf8EncodeChar c <+: part ++ rest
  begins : BeginsCharacter part ∨ part.length = 1
  longest : ∀ bytes, bytes <+: part ++ rest → BeginsCharacter bytes → bytes.length ≤ part.length

/-- Whether a text has the characters of the bytes in order, with one replacement character in place of each
maximal invalid part. -/
inductive LossyText : List UInt8 → List Char → Prop
  | nil : LossyText [] []
  | kept (c : Char) {bytes : List UInt8} {s : List Char} (h : LossyText bytes s) :
      LossyText (String.utf8EncodeChar c ++ bytes) (c :: s)
  | replaced {part rest : List UInt8} {s : List Char} (hpart : InvalidPart part rest)
      (h : LossyText rest s) : LossyText (part ++ rest) (replacement :: s)

section Continued

variable {n : Nat} {lo hi : UInt8} {rest : List UInt8}

/-- The bytes that can belong to a character stand at the front. -/
theorem take_continued (n : Nat) (lo hi : UInt8) (rest : List UInt8) :
    rest.take (continued n lo hi rest).length = continued n lo hi rest := by
  refine (List.prefix_iff_eq_take.1 ?_).symm
  cases rest with
  | nil => exact List.prefix_rfl
  | cons b rest =>
    rw [continued]
    split_ifs
    · have hfront := List.takeWhile_prefix (l := rest.take (n - 1)) isContinuation
      have htake := List.take_prefix (n - 1) rest
      exact (List.prefix_cons_inj b).2 (hfront.trans htake)
    · exact List.nil_prefix

theorem length_continued_le (hn : 0 < n) (lo hi : UInt8) (rest : List UInt8) :
    (continued n lo hi rest).length ≤ n := by
  cases rest with
  | nil => exact Nat.zero_le n
  | cons b rest =>
    rw [continued]
    split_ifs
    · have hfront := List.takeWhile_prefix (l := rest.take (n - 1)) isContinuation
      have hle := hfront.length_le
      have htake := List.length_take_le (n - 1) rest
      rw [List.length_cons]
      omega
    · exact Nat.zero_le n

/-- The bytes that can belong to a character are in their ranges. -/
theorem continued_cases (h : continued n lo hi rest ≠ []) :
    ∃ b more, continued n lo hi rest = b :: more ∧ (lo.toNat ≤ b.toNat ∧ b.toNat ≤ hi.toNat) ∧
      ∀ x ∈ more, 0x80 ≤ x.toNat ∧ x.toNat ≤ 0xBF := by
  cases rest with
  | nil => exact absurd rfl h
  | cons b rest =>
    rw [continued] at h ⊢
    split_ifs at h ⊢ with hb
    · refine ⟨b, _, rfl, by simpa [UInt8.le_iff_toNat_le] using hb, ?_⟩
      intro x hx
      have hx := List.mem_takeWhile_imp hx
      simpa [isContinuation, UInt8.le_iff_toNat_le] using hx
    · exact absurd rfl h

/-- Bytes in their ranges at the front, no more than announced, are among those that can belong to the
character. -/
theorem prefix_continued {b : UInt8} {more : List UInt8} (h : b :: more <+: rest)
    (hlen : (b :: more).length ≤ n) (hb : lo.toNat ≤ b.toNat ∧ b.toNat ≤ hi.toNat)
    (hmore : ∀ x ∈ more, 0x80 ≤ x.toNat ∧ x.toNat ≤ 0xBF) :
    b :: more <+: continued n lo hi rest := by
  obtain ⟨behind, rfl⟩ := h
  have hall : ∀ x ∈ more, isContinuation x := by
    intro x hx
    simpa [isContinuation, UInt8.le_iff_toNat_le] using hmore x hx
  have hle : more.length ≤ n - 1 := by
    rw [List.length_cons] at hlen
    omega
  rw [List.cons_append, continued, if_pos (by simpa [UInt8.le_iff_toNat_le] using hb),
    List.prefix_cons_inj, List.take_append, List.take_of_length_le hle,
    List.takeWhile_append_of_pos hall]
  exact List.prefix_append _ _

end Continued

theorem lo_le_hi {lead lo hi : UInt8} {n : Nat} (h : continuation? lead = some (n, lo, hi)) :
    lo.toNat ≤ hi.toNat := by
  rw [continuation?_eq] at h
  split_ifs at h
  all_goals
    simp only [Option.some.injEq, Prod.mk.injEq] at h
    obtain ⟨-, rfl, rfl⟩ := h
    decide

/-- A lead with fewer bytes than it announces begins a character: the lowest bytes can follow. -/
theorem beginsCharacter_continued {lead lo hi : UInt8} {n : Nat} {rest : List UInt8}
    (h : continuation? lead = some (n, lo, hi)) (hlt : (continued n lo hi rest).length < n) :
    BeginsCharacter (lead :: continued n lo hi rest) := by
  have hfill (k : Nat) : ∀ x ∈ List.replicate k (0x80 : UInt8), 0x80 ≤ x.toNat ∧ x.toNat ≤ 0xBF := by
    intro x hx
    rw [List.eq_of_mem_replicate hx]
    decide
  by_cases hnil : continued n lo hi rest = []
  · have hlen : n = (List.replicate (n - 1) (0x80 : UInt8)).length + 1 := by
      rw [List.length_replicate]
      omega
    rw [hlen] at h
    have hchar := utf8EncodeChar_codePoint h ⟨Nat.le_refl _, lo_le_hi h⟩ (hfill _)
    rw [hnil]
    exact ⟨_, by rw [hchar]; exact ⟨_, rfl⟩⟩
  · obtain ⟨b, more, hcont, hb, hmore⟩ := continued_cases hnil
    rw [hcont, List.length_cons] at hlt
    have hlen : n = (more ++ List.replicate (n - 1 - more.length) (0x80 : UInt8)).length + 1 := by
      rw [List.length_append, List.length_replicate]
      omega
    rw [hlen] at h
    have hchar := utf8EncodeChar_codePoint h hb
      (List.forall_mem_append.2 ⟨hmore, hfill _⟩)
    rw [hcont]
    exact ⟨_, by rw [hchar]; exact ⟨_, rfl⟩⟩

/-- A beginning of a character at the front is at most the lead and the bytes that can belong to it. -/
theorem length_le_of_beginsCharacter {lead : UInt8} {rest bytes : List UInt8}
    (hfront : bytes <+: lead :: rest) (h : BeginsCharacter bytes) :
    bytes.length ≤ 1 ∨ ∃ n lo hi, continuation? lead = some (n, lo, hi) ∧
      bytes.length ≤ (lead :: continued n lo hi rest).length := by
  obtain ⟨c, hc⟩ := h
  rcases bytes with - | ⟨b, - | ⟨x, more⟩⟩
  · exact Or.inl (Nat.zero_le 1)
  · exact Or.inl (Nat.le_refl 1)
  · obtain ⟨rfl, hrest⟩ := List.cons_prefix_cons.1 hfront
    obtain ⟨behind, hchar⟩ := hc
    rcases encoded_cases hchar.symm with ⟨-, -, hnil⟩ | ⟨lo, hi, y, others, htail, hencodes⟩
    · contradiction
    · obtain ⟨rfl, rfl⟩ := List.cons.inj htail
      have hlen : (x :: more).length ≤ (more ++ behind).length + 1 := by simp
      have hmore : ∀ z ∈ more, 0x80 ≤ z.toNat ∧ z.toNat ≤ 0xBF :=
        fun z hz => hencodes.further z (List.mem_append_left _ hz)
      have hle := (prefix_continued hrest hlen hencodes.first hmore).length_le
      exact Or.inr ⟨_, lo, hi, hencodes.announced, Nat.succ_le_succ hle⟩

/-- Why no character is found at the front: the lead announces nothing, or more than follows. -/
theorem decodeFirst_none_cases {lead : UInt8} {rest : List UInt8} {k : Nat}
    (h : decodeFirst lead rest = (none, k)) :
    (continuation? lead = none ∧ k = 0) ∨
      ∃ n lo hi, continuation? lead = some (n, lo, hi) ∧ (continued n lo hi rest).length < n ∧
        k = (continued n lo hi rest).length := by
  unfold decodeFirst at h
  split_ifs at h with hascii
  · simp at h
  · cases hlead : continuation? lead with
    | none =>
      simp only [hlead, Prod.mk.injEq, true_and] at h
      exact Or.inl ⟨rfl, h.symm⟩
    | some announced =>
      obtain ⟨n, lo, hi⟩ := announced
      simp only [hlead] at h
      split_ifs at h with hlen
      · simp at h
      · have hpos : 0 < n := by
          have := continuation?_cases hlead
          omega
        have hle := length_continued_le hpos lo hi rest
        exact Or.inr ⟨n, lo, hi, rfl, by omega, (Prod.mk.inj h).2.symm⟩

/-- What the decoder takes for one replacement character is a maximal invalid part. -/
theorem invalidPart_of_decodeFirst {lead : UInt8} {rest : List UInt8} {k : Nat}
    (h : decodeFirst lead rest = (none, k)) : InvalidPart (lead :: rest.take k) (rest.drop k) := by
  have hwhole : lead :: rest.take k ++ rest.drop k = lead :: rest := by
    rw [List.cons_append, List.take_append_drop]
  have hnone : ∀ c, ¬String.utf8EncodeChar c <+: lead :: rest := by
    rintro c ⟨behind, hc⟩
    obtain ⟨b, tail, hchar⟩ := List.exists_cons_of_ne_nil (String.utf8EncodeChar_ne_nil (c := c))
    rw [hchar, List.cons_append] at hc
    obtain ⟨rfl, rfl⟩ := List.cons.inj hc
    rw [decodeFirst_encoded hchar] at h
    simp at h
  refine ⟨List.cons_ne_nil _ _, by rwa [hwhole], ?_, ?_⟩
  · rcases decodeFirst_none_cases h with ⟨-, rfl⟩ | ⟨n, lo, hi, hlead, hlt, rfl⟩
    · exact Or.inr rfl
    · rw [take_continued]
      exact Or.inl (beginsCharacter_continued hlead hlt)
  · intro bytes hfront hbegins
    rw [hwhole] at hfront
    rcases length_le_of_beginsCharacter hfront hbegins with hle | ⟨n, lo, hi, hlead, hle⟩
    · rw [List.length_cons]
      omega
    · rcases decodeFirst_none_cases h with ⟨hnothing, -⟩ | ⟨m, lo', hi', hsome, -, rfl⟩
      · rw [hlead] at hnothing
        contradiction
      · obtain ⟨rfl, rfl, rfl⟩ := by simpa [hlead] using hsome
        rwa [take_continued]

theorem InvalidPart.length_le {part rest part' rest' : List UInt8} (h : InvalidPart part rest)
    (h' : InvalidPart part' rest') (heq : part ++ rest = part' ++ rest') :
    part.length ≤ part'.length := by
  rcases h.begins with hbegins | hsingle
  · have hfront : part <+: part' ++ rest' := by
      rw [← heq]
      exact List.prefix_append part rest
    exact h'.longest part hfront hbegins
  · rw [hsingle]
    exact List.length_pos_of_ne_nil h'.nonempty

/-- There is at most one maximal invalid part at a place. -/
theorem InvalidPart.unique {part rest part' rest' : List UInt8} (h : InvalidPart part rest)
    (h' : InvalidPart part' rest') (heq : part ++ rest = part' ++ rest') :
    part = part' ∧ rest = rest' :=
  List.append_inj heq (Nat.le_antisymm (h.length_le h' heq) (h'.length_le h heq.symm))

theorem decodeLossy_encoded (c : Char) (bytes : List UInt8) :
    decodeLossy (String.utf8EncodeChar c ++ bytes) = c :: decodeLossy bytes := by
  obtain ⟨lead, tail, h⟩ := List.exists_cons_of_ne_nil (String.utf8EncodeChar_ne_nil (c := c))
  rw [h, List.cons_append, decodeLossy, decodeFirst_encoded h, List.drop_left, Option.getD_some]

theorem decodeLossy_toUtf8 (s : List Char) : decodeLossy (toUtf8 s) = s := by
  induction s with
  | nil => rw [toUtf8, List.flatMap_nil, decodeLossy]
  | cons c s ih =>
    have hcons : toUtf8 (c :: s) = String.utf8EncodeChar c ++ toUtf8 s := rfl
    rw [hcons, decodeLossy_encoded, ih]

theorem decodeLossy_invalidPart {part rest : List UInt8} (h : InvalidPart part rest) :
    decodeLossy (part ++ rest) = replacement :: decodeLossy rest := by
  obtain ⟨lead, tail, rfl⟩ := List.exists_cons_of_ne_nil h.nonempty
  rw [List.cons_append, decodeLossy]
  cases hfirst : decodeFirst lead (tail ++ rest) with
  | mk found k =>
    cases found with
    | some c =>
      have hchar := encoded_of_decodeFirst hfirst
      have hfront : String.utf8EncodeChar c <+: lead :: tail ++ rest := by
        rw [hchar, List.cons_append, List.prefix_cons_inj]
        exact List.take_prefix k _
      exact absurd hfront (h.noCharacter c)
    | none =>
      have hsame : lead :: (tail ++ rest).take k ++ (tail ++ rest).drop k = lead :: tail ++ rest := by
        rw [List.cons_append, List.take_append_drop, List.cons_append]
      obtain ⟨-, hrest⟩ := (invalidPart_of_decodeFirst hfirst).unique h hsame
      rw [hrest, Option.getD_none]

theorem lossyText_decodeLossy (bytes : List UInt8) : LossyText bytes (decodeLossy bytes) := by
  fun_induction decodeLossy bytes with
  | case1 => exact .nil
  | case2 lead rest ih =>
    cases hfirst : decodeFirst lead rest with
    | mk found k =>
      rw [hfirst] at ih
      have hwhole : lead :: rest.take k ++ rest.drop k = lead :: rest := by
        rw [List.cons_append, List.take_append_drop]
      rw [← hwhole]
      cases found with
      | some c =>
        rw [← encoded_of_decodeFirst hfirst]
        exact .kept c ih
      | none => exact .replaced (invalidPart_of_decodeFirst hfirst) ih

/-- The decoder gives the one text that keeps all characters and replaces all maximal invalid parts. -/
theorem lossyText_iff {bytes : List UInt8} {s : List Char} :
    LossyText bytes s ↔ decodeLossy bytes = s := by
  constructor
  · intro h
    induction h with
    | nil => rw [decodeLossy]
    | kept c h ih => rw [decodeLossy_encoded, ih]
    | replaced hpart h ih => rw [decodeLossy_invalidPart hpart, ih]
  · rintro rfl
    exact lossyText_decodeLossy bytes

end ScriptTree.Text
