import ScriptTree.Proofs.Escapes

/-! Escapes by a number that are malformed. Each gives one replacement character and is read on right behind
its letter, unless there is a plus sign in front of its digits: then the sign counts as one of them. -/
namespace ScriptTree.StringLiteral

/-- Whether no backslash at the end of a text waits for the character behind it. An escape can begin right
behind such a text. -/
def isWhole : List Char → Bool
  | [] => true
  | c :: s =>
    if c ≠ '\\' then isWhole s
    else match s with
      | [] => false
      | _ :: t => isWhole t

/-- Whether what stands behind the letter of an escape by a number is as it should be. -/
inductive WellFormed : Char → List Char → Prop
  | byte {n : Nat} {digits : List Char} (h : Hex n digits) (hlen : digits.length = 2)
      (rest : List Char) : WellFormed 'x' (digits ++ rest)
  | unit {n : Nat} {digits : List Char} (h : Hex n digits) (hlen : digits.length = 4)
      (rest : List Char) : WellFormed 'u' (digits ++ rest)
  | braced {n : Nat} {digits : List Char} (h : Hex n digits) (hne : digits ≠ [])
      (rest : List Char) : WellFormed 'u' ('\x7b' :: (digits ++ '\x7d' :: rest))

/-- Whether what stands behind `\x` or `\u` is not as it should be. -/
structure Malformed (c : Char) (s : List Char) : Prop where
  letter : c = 'x' ∨ c = 'u'
  malformed : ¬WellFormed c s

/-- Whether a plus sign and the digits of a number stand where only digits should, with `rest` behind. -/
inductive Signed : Char → List Char → Nat → List Char → Prop
  | byte {n : Nat} {digits : List Char} (h : Hex n digits) (hlen : digits.length = 1)
      (rest : List Char) : Signed 'x' ('+' :: (digits ++ rest)) n rest
  | unit {n : Nat} {digits : List Char} (h : Hex n digits) (hlen : digits.length = 3)
      (rest : List Char) : Signed 'u' ('+' :: (digits ++ rest)) n rest
  | braced {n : Nat} {digits : List Char} (h : Hex n digits) (hne : digits ≠ [])
      (hfits : n < UInt32.size) (rest : List Char) :
      Signed 'u' ('\x7b' :: '+' :: (digits ++ '\x7d' :: rest)) n rest

theorem number?_eq_some_iff {n : Nat} {s : List Char} :
    Text.number? 16 s = some n ↔ s ≠ [] ∧ Hex n s := by
  rw [hex_iff, Text.number?]
  split_ifs with h
  · simp [h.1, h.2]
  · simp only [false_iff]
    tauto

/-- A number is spelled by digits, or by digits behind a plus sign. -/
theorem hexNumber?_cases {n : Nat} {s : List Char} (h : hexNumber? s = some n) :
    n < UInt32.size ∧ ((s ≠ [] ∧ Hex n s) ∨ ∃ digits, s = '+' :: digits ∧ digits ≠ [] ∧ Hex n digits) := by
  unfold hexNumber? at h
  obtain ⟨hnumber, hfits⟩ := Option.filter_eq_some_iff.1 h
  refine ⟨by simpa using hfits, ?_⟩
  split at hnumber
  · next digits => exact Or.inr ⟨digits, rfl, number?_eq_some_iff.1 hnumber⟩
  · exact Or.inl (number?_eq_some_iff.1 hnumber)

theorem hexNumber?_signed {n : Nat} {digits : List Char} (h : Hex n digits) (hne : digits ≠ [])
    (hfits : n < UInt32.size) : hexNumber? ('+' :: digits) = some n := by
  simp [hexNumber?, number?_eq_some_iff.2 ⟨hne, h⟩, Option.filter_some, hfits]

/-- There is no backslash among the characters of a number. -/
theorem ne_backslash_of_hexNumber? {n : Nat} {s : List Char} (h : hexNumber? s = some n) :
    ∀ c ∈ s, c ≠ '\\' := by
  obtain ⟨-, ⟨-, hdigits⟩ | ⟨digits, rfl, -, hdigits⟩⟩ := hexNumber?_cases h
  · exact fun c hc => hdigits.ne_of_mem hc '\\' (by decide)
  · rw [List.forall_mem_cons]
    exact ⟨by decide, fun c hc => hdigits.ne_of_mem hc '\\' (by decide)⟩

theorem hexNumber?_eq_none {s : List Char} (h : '\\' ∈ s) : hexNumber? s = none := by
  by_contra hne
  obtain ⟨n, hn⟩ := Option.ne_none_iff_exists'.1 hne
  exact ne_backslash_of_hexNumber? hn _ h rfl

theorem hexPrefix?_eq_some_iff {k n : Nat} {s : List Char} :
    hexPrefix? k s = some n ↔ ∃ w rest, s = w ++ rest ∧ w.length = k ∧ hexNumber? w = some n := by
  unfold hexPrefix?
  constructor
  · intro h
    split_ifs at h with hle
    exact ⟨s.take k, s.drop k, (List.take_append_drop k s).symm, List.length_take_of_le hle, h⟩
  · rintro ⟨w, rest, rfl, rfl, h⟩
    rw [if_pos (by simp), List.take_left, h]

theorem lowSurrogate?_cases {s : List Char} {low : Nat} (h : lowSurrogate? s = some low) :
    (0xDC00 ≤ low ∧ low < 0xE000) ∧
      ∃ w rest, s = '\\' :: 'u' :: (w ++ rest) ∧ w.length = 4 ∧ hexNumber? w = some low := by
  unfold lowSurrogate? at h
  split at h
  · obtain ⟨hdigits, hrange⟩ := Option.filter_eq_some_iff.1 h
    obtain ⟨w, rest, rfl, hlen, hnumber⟩ := hexPrefix?_eq_some_iff.1 hdigits
    have hrange : 0xDC00 ≤ low ∧ low < 0xE000 := by simpa using hrange
    exact ⟨hrange, w, rest, rfl, hlen, hnumber⟩
  · contradiction

theorem bracedEscape_unclosed {s : List Char} (h : '\x7d' ∉ s) : bracedEscape s = (none, 0) := by
  have hall : s.takeWhile (· ≠ '\x7d') = s := by
    rw [List.takeWhile_eq_self_iff]
    intro c hc
    simpa using ne_of_mem_of_not_mem hc h
  unfold bracedEscape
  rw [hall, if_pos rfl]

theorem bracedEscape_closed {digits : List Char} (h : '\x7d' ∉ digits) (rest : List Char) :
    bracedEscape (digits ++ '\x7d' :: rest) =
      match hexNumber? digits with
      | none => (none, 0)
      | some n => (Text.scalar? n, digits.length + 2) := by
  unfold bracedEscape
  rw [takeWhile_ne_append h]
  exact if_neg (by simp)

/-- What is taken of the text in braces: nothing, or a number and all up to the first closing brace. -/
theorem bracedEscape_cases (s : List Char) :
    bracedEscape s = (none, 0) ∨ ∃ n digits rest, s = digits ++ '\x7d' :: rest ∧
      hexNumber? digits = some n ∧ bracedEscape s = (Text.scalar? n, digits.length + 2) := by
  by_cases hclose : '\x7d' ∈ s
  · obtain ⟨digits, rest, rfl, hnot⟩ := List.eq_append_cons_of_mem hclose
    rw [bracedEscape_closed hnot]
    cases hnumber : hexNumber? digits with
    | none => exact Or.inl rfl
    | some n => exact Or.inr ⟨n, digits, rest, rfl, hnumber, rfl⟩
  · exact Or.inl (bracedEscape_unclosed hclose)

theorem unicodeEscape_brace (s : List Char) : unicodeEscape ('\x7b' :: s) = bracedEscape s := rfl

theorem unicodeEscape_of_ne {s : List Char} (h : s.head? ≠ some '\x7b') :
    unicodeEscape s = match hexPrefix? 4 s with
      | none => (none, 0)
      | some high =>
        if 0xD800 ≤ high ∧ high < 0xDC00 then
          match lowSurrogate? (s.drop 4) with
          | some low => (Text.scalar? (0x10000 + (high - 0xD800) * 0x400 + (low - 0xDC00)), 10)
          | none => (none, 4)
        else (Text.scalar? high, 4) := by
  unfold unicodeEscape
  split
  · exact absurd rfl h
  · rfl

/-- How many characters are taken behind `\u`: none, a number in braces, one of four digits, or a high and a low
surrogate with an escape each. -/
theorem unicodeEscape_cases (s : List Char) :
    (unicodeEscape s = (none, 0)) ∨
    (∃ n digits rest, s = '\x7b' :: (digits ++ '\x7d' :: rest) ∧ hexNumber? digits = some n ∧
      unicodeEscape s = (Text.scalar? n, digits.length + 2)) ∨
    ∃ n w rest, s = w ++ rest ∧ w.length = 4 ∧ hexNumber? w = some n ∧
      ((unicodeEscape s).2 = 4 ∨ (unicodeEscape s).2 = 10 ∧
        ∃ low v behind, rest = '\\' :: 'u' :: (v ++ behind) ∧ v.length = 4 ∧ hexNumber? v = some low) := by
  by_cases hbrace : s.head? = some '\x7b'
  · obtain ⟨t, rfl⟩ := List.head?_eq_some_iff.1 hbrace
    rw [unicodeEscape_brace]
    rcases bracedEscape_cases t with hnone | ⟨n, digits, rest, rfl, hnumber, hescape⟩
    · exact Or.inl hnone
    · exact Or.inr (Or.inl ⟨n, digits, rest, rfl, hnumber, hescape⟩)
  · rw [unicodeEscape_of_ne hbrace]
    cases hdigits : hexPrefix? 4 s with
    | none => exact Or.inl rfl
    | some high =>
      obtain ⟨w, rest, rfl, hlen, hnumber⟩ := hexPrefix?_eq_some_iff.1 hdigits
      refine Or.inr (Or.inr ⟨high, w, rest, rfl, hlen, hnumber, ?_⟩)
      simp only [List.drop_left' hlen]
      split_ifs with hhigh
      · cases hlow : lowSurrogate? rest with
        | none => exact Or.inl rfl
        | some low =>
          obtain ⟨-, v, behind, rfl, hv, hsecond⟩ := lowSurrogate?_cases hlow
          exact Or.inr ⟨rfl, low, v, behind, rfl, hv, hsecond⟩
      · exact Or.inl rfl

/-- One digit less is enough behind a sign. -/
theorem hexPrefix?_signed {n : Nat} {digits : List Char} (h : Hex n digits)
    (hlen : digits.length = 1 ∨ digits.length = 3) (rest : List Char) :
    hexPrefix? (digits.length + 1) ('+' :: (digits ++ rest)) = some n := by
  have hne : digits ≠ [] := by
    rintro rfl
    simp at hlen
  have hfits : n < UInt32.size := by
    have hlt := h.lt_pow
    rcases hlen with hlen | hlen <;> rw [hlen] at hlt <;> exact hlt.trans (by decide)
  exact hexPrefix?_eq_some_iff.2 ⟨'+' :: digits, rest, rfl, rfl, hexNumber?_signed h hne hfits⟩

section Whole

theorem isWhole_plain {c : Char} (h : c ≠ '\\') (s : List Char) : isWhole (c :: s) = isWhole s := by
  rw [isWhole.eq_def]
  simp [h]

theorem isWhole_escape (c : Char) (s : List Char) : isWhole ('\\' :: c :: s) = isWhole s := by
  simp [isWhole]

theorem isWhole_append {w : List Char} (h : ∀ c ∈ w, c ≠ '\\') (rest : List Char) :
    isWhole (w ++ rest) = isWhole rest := by
  induction w with
  | nil => rfl
  | cons c w ih =>
    rw [List.forall_mem_cons] at h
    rw [List.cons_append, isWhole_plain h.1, ih h.2]

theorem unicodeEscape_takes (s : List Char) :
    ∃ w rest, s = w ++ rest ∧ (unicodeEscape s).2 = w.length ∧ isWhole s = isWhole rest := by
  rcases unicodeEscape_cases s with hnone | ⟨n, digits, rest, rfl, hnumber, hescape⟩ |
    ⟨n, w, rest, rfl, hw, hnumber, htaken⟩
  · exact ⟨[], s, rfl, by rw [hnone]; rfl, rfl⟩
  · refine ⟨'\x7b' :: (digits ++ ['\x7d']), rest, by simp, by simp [hescape], ?_⟩
    rw [isWhole_plain (by decide), isWhole_append (ne_backslash_of_hexNumber? hnumber),
      isWhole_plain (by decide)]
  · have hfirst := isWhole_append (ne_backslash_of_hexNumber? hnumber)
    rcases htaken with htaken | ⟨htaken, low, v, behind, rfl, hv, hsecond⟩
    · exact ⟨w, rest, rfl, by rw [htaken, hw], hfirst rest⟩
    · refine ⟨w ++ '\\' :: 'u' :: v, behind, by simp, by simp [htaken, hw, hv], ?_⟩
      rw [hfirst, isWhole_escape, isWhole_append (ne_backslash_of_hexNumber? hsecond)]

/-- An escape takes characters from the front, and no backslash without the character behind it. -/
theorem escape_takes (c : Char) (s : List Char) :
    ∃ w rest, s = w ++ rest ∧ (escape c s).2 = w.length ∧ isWhole s = isWhole rest := by
  have hnothing : ∃ w rest, s = w ++ rest ∧ 0 = w.length ∧ isWhole s = isWhole rest :=
    ⟨[], s, rfl, rfl, rfl⟩
  unfold escape
  cases letterEscape? c with
  | some d => exact hnothing
  | none =>
    dsimp only
    split_ifs with hx hu hcr hlf hline
    · unfold byteEscape
      cases hdigits : hexPrefix? 2 s with
      | none => exact hnothing
      | some n =>
        obtain ⟨w, rest, rfl, hw, hnumber⟩ := hexPrefix?_eq_some_iff.1 hdigits
        exact ⟨w, rest, rfl, hw.symm, isWhole_append (ne_backslash_of_hexNumber? hnumber) rest⟩
    · exact unicodeEscape_takes s
    · obtain ⟨rest, rfl⟩ := List.head?_eq_some_iff.1 hlf
      exact ⟨['\n'], rest, rfl, rfl, isWhole_plain (by decide) rest⟩
    · exact hnothing
    · exact hnothing
    · exact hnothing

end Whole

section Append

variable {t : List Char}

/-- A backslash ends the digits of a number, whatever follows it. -/
theorem hexPrefix?_append (k : Nat) (s t : List Char) :
    hexPrefix? k (s ++ '\\' :: t) = hexPrefix? k s := by
  unfold hexPrefix?
  by_cases hk : k ≤ s.length
  · rw [if_pos hk, if_pos (by simp; omega), List.take_append_of_le_length hk]
  · rw [if_neg hk]
    split_ifs with hlong
    · refine hexNumber?_eq_none ?_
      have htake : '\\' ∈ ('\\' :: t).take (k - s.length) := by
        obtain ⟨m, hm⟩ := Nat.exists_eq_add_of_lt (Nat.lt_of_not_le hk)
        have hsub : k - s.length = m + 1 := by omega
        rw [hsub, List.take_succ_cons]
        exact List.mem_cons_self
      rw [List.take_append]
      exact List.mem_append_right _ htake
    · rfl

theorem lowSurrogate?_append (ht : lowSurrogate? ('\\' :: t) = none) (s : List Char) :
    lowSurrogate? (s ++ '\\' :: t) = lowSurrogate? s := by
  rcases s with - | ⟨c, - | ⟨d, s⟩⟩
  · rw [List.nil_append, ht]
    rfl
  · rw [lowSurrogate?_of_ne (by simp), lowSurrogate?_of_ne (by simp)]
  · by_cases hescape : c = '\\' ∧ d = 'u'
    · obtain ⟨rfl, rfl⟩ := hescape
      simp only [List.cons_append, lowSurrogate?, hexPrefix?_append]
    · rw [lowSurrogate?_of_ne (by simp; tauto), lowSurrogate?_of_ne (by simp; tauto)]

theorem bracedEscape_append (s t : List Char) : bracedEscape (s ++ '\\' :: t) = bracedEscape s := by
  by_cases hclose : '\x7d' ∈ s
  · obtain ⟨digits, rest, rfl, hnot⟩ := List.eq_append_cons_of_mem hclose
    rw [List.append_assoc, List.cons_append, bracedEscape_closed hnot, bracedEscape_closed hnot]
  · rw [bracedEscape_unclosed hclose]
    rcases bracedEscape_cases (s ++ '\\' :: t) with hnone | ⟨n, digits, rest, hsplit, hnumber, -⟩
    · exact hnone
    · -- The first closing brace stands behind the backslash, which is no digit.
      have hmem : '\\' ∈ digits := by
        rcases List.append_eq_append_iff.1 hsplit with ⟨v, rfl, hv⟩ | ⟨v, rfl, hv⟩
        · cases v with
          | nil => simp at hv
          | cons c v =>
            obtain ⟨rfl, -⟩ := List.cons.inj hv
            simp
        · cases v with
          | nil => simp at hv
          | cons c v => simp [← (List.cons.inj hv).1] at hclose
      rw [hexNumber?_eq_none hmem] at hnumber
      contradiction

theorem unicodeEscape_append (ht : lowSurrogate? ('\\' :: t) = none) (s : List Char) :
    unicodeEscape (s ++ '\\' :: t) = unicodeEscape s := by
  by_cases hbrace : s.head? = some '\x7b'
  · obtain ⟨s, rfl⟩ := List.head?_eq_some_iff.1 hbrace
    exact bracedEscape_append s t
  · have hbrace' : (s ++ '\\' :: t).head? ≠ some '\x7b' := by
      cases s with
      | nil => simp
      | cons c s => simpa using hbrace
    rw [unicodeEscape_of_ne hbrace, unicodeEscape_of_ne hbrace', hexPrefix?_append]
    cases hdigits : hexPrefix? 4 s with
    | none => rfl
    | some high =>
      obtain ⟨w, rest, rfl, hlen, -⟩ := hexPrefix?_eq_some_iff.1 hdigits
      rw [List.append_assoc]
      simp only [List.drop_left' hlen, lowSurrogate?_append ht]

theorem escape_append (ht : lowSurrogate? ('\\' :: t) = none) (c : Char) (s : List Char) :
    escape c (s ++ '\\' :: t) = escape c s := by
  have hbyte : byteEscape (s ++ '\\' :: t) = byteEscape s := by
    rw [byteEscape, byteEscape, hexPrefix?_append]
  have hline : (s ++ '\\' :: t).head? = some '\n' ↔ s.head? = some '\n' := by
    cases s <;> simp
  simp only [escape, hbyte, unicodeEscape_append ht, hline]

/-- A text in which no backslash waits is read for itself in front of a backslash, unless the escape there is
that of a low surrogate. -/
theorem unescape_append (ht : lowSurrogate? ('\\' :: t) = none) {p : List Char} (hp : isWhole p) :
    unescape (p ++ '\\' :: t) = unescape p ++ unescape ('\\' :: t) := by
  fun_induction unescape p with
  | case1 => rfl
  | case2 c s hc ih =>
    rw [isWhole_plain hc] at hp
    rw [List.cons_append, unescape_plain hc, ih hp, List.cons_append]
  | case3 c hc => simp_all [isWhole]
  | case4 c hc d s ih =>
    obtain rfl : c = '\\' := by simpa using hc
    rw [isWhole_escape] at hp
    obtain ⟨w, rest, rfl, hlen, hwhole⟩ := escape_takes d s
    rw [List.cons_append, List.cons_append, unescape_escape, escape_append ht, hlen, List.append_assoc]
    simp only [hlen, List.drop_left] at ih ⊢
    rw [ih (by rw [← hwhole]; exact hp), List.append_assoc]

end Append

section Malformed

variable {c : Char} {s : List Char}

/-- The digits right behind the letter are those of a well-formed escape, or begin with a plus sign. -/
theorem number_cases {n : Nat} {w : List Char} (h : hexNumber? w = some n) :
    Hex n w ∨ ∃ digits, w = '+' :: digits ∧ Hex n digits := by
  obtain ⟨-, ⟨-, hdigits⟩ | ⟨digits, rfl, -, hdigits⟩⟩ := hexNumber?_cases h
  · exact Or.inl hdigits
  · exact Or.inr ⟨digits, rfl, hdigits⟩

/-- A malformed escape without a sign gives the replacement character and takes nothing. -/
theorem escape_malformed (h : Malformed c s) (hsign : ¬∃ n rest, Signed c s n rest) :
    escape c s = ([Text.replacement], 0) := by
  obtain ⟨rfl | rfl, hmalformed⟩ := h
  · have hbyte : byteEscape s = (none, 0) := by
      unfold byteEscape
      cases hdigits : hexPrefix? 2 s with
      | none => rfl
      | some n =>
        obtain ⟨w, rest, rfl, hw, hnumber⟩ := hexPrefix?_eq_some_iff.1 hdigits
        rcases number_cases hnumber with hhex | ⟨digits, rfl, hhex⟩
        · exact absurd (.byte hhex hw rest) hmalformed
        · exact absurd ⟨n, rest, .byte hhex (by simpa using hw) rest⟩ hsign
    simp [escape, letterEscape?, hbyte]
  · have hunicode : unicodeEscape s = (none, 0) := by
      rcases unicodeEscape_cases s with hnone | ⟨n, w, rest, rfl, hnumber, -⟩ |
        ⟨n, w, rest, rfl, hw, hnumber, -⟩
      · exact hnone
      · obtain ⟨hfits, ⟨hne, hhex⟩ | ⟨digits, rfl, hne, hhex⟩⟩ := hexNumber?_cases hnumber
        · exact absurd (.braced hhex hne rest) hmalformed
        · exact absurd ⟨n, rest, .braced hhex hne hfits rest⟩ hsign
      · rcases number_cases hnumber with hhex | ⟨digits, rfl, hhex⟩
        · exact absurd (.unit hhex hw rest) hmalformed
        · exact absurd ⟨n, rest, .unit hhex (by simpa using hw) rest⟩ hsign
    simp [escape, letterEscape?, hunicode]

/-- An escape with a sign gives the character of its number and takes the sign and all digits. -/
theorem escape_signed {n : Nat} {rest : List Char} (h : Signed c s n rest) :
    ∃ w, s = w ++ rest ∧ w ≠ [] ∧ (∀ d ∈ w, d ≠ '\\') ∧
      escape c s = ([(Text.scalar? n).getD Text.replacement], w.length) := by
  have hplain {m : Nat} {digits : List Char} (hhex : Hex m digits) : ∀ d ∈ '+' :: digits, d ≠ '\\' := by
    rw [List.forall_mem_cons]
    exact ⟨by decide, fun d hd => hhex.ne_of_mem hd '\\' (by decide)⟩
  cases h with
  | @byte n digits hhex hlen rest =>
    have hdigits := hexPrefix?_signed hhex (Or.inl hlen) rest
    rw [hlen] at hdigits
    refine ⟨'+' :: digits, rfl, List.cons_ne_nil _ _, hplain hhex, ?_⟩
    simp [escape, letterEscape?, byteEscape, hdigits, hlen]
  | @unit n digits hhex hlen rest =>
    have hdigits := hexPrefix?_signed hhex (Or.inr hlen) rest
    have hlt := hhex.lt_pow
    rw [hlen] at hdigits hlt
    have hescape : unicodeEscape ('+' :: (digits ++ rest)) = (Text.scalar? n, 4) := by
      rw [unicodeEscape_of_ne (by simp), hdigits]
      dsimp only
      rw [if_neg (by omega)]
    refine ⟨'+' :: digits, rfl, List.cons_ne_nil _ _, hplain hhex, ?_⟩
    simp [escape, letterEscape?, hescape, hlen]
  | @braced n digits hhex hne hfits rest =>
    have hclose : '\x7d' ∉ '+' :: digits := by
      rw [List.mem_cons, not_or]
      exact ⟨by decide, fun hmem => hhex.ne_of_mem hmem '\x7d' (by decide) rfl⟩
    have hescape := bracedEscape_closed hclose rest
    rw [hexNumber?_signed hhex hne hfits] at hescape
    refine ⟨'\x7b' :: '+' :: (digits ++ ['\x7d']), by simp, List.cons_ne_nil _ _, ?_, ?_⟩
    · have hdigits := hplain hhex
      simp only [List.mem_cons, List.mem_append, List.not_mem_nil, or_false] at hdigits ⊢
      rintro d (rfl | rfl | hd | rfl)
      · decide
      · decide
      · exact hdigits d (Or.inr hd)
      · decide
    · rw [List.cons_append] at hescape
      simp [escape, letterEscape?, unicodeEscape_brace, hescape]

/-- A well-formed escape has a digit right behind its letter or behind a brace. -/
theorem WellFormed.front (h : WellFormed c s) :
    ∃ d t, Text.isDigitOf 16 d ∧ (s = d :: t ∨ s = '\x7b' :: d :: t) := by
  cases h with
  | byte hhex hlen rest =>
    obtain ⟨d, digits, rfl⟩ := List.exists_cons_of_length_eq_add_one hlen
    exact ⟨d, digits ++ rest, hhex.all d List.mem_cons_self, Or.inl rfl⟩
  | unit hhex hlen rest =>
    obtain ⟨d, digits, rfl⟩ := List.exists_cons_of_length_eq_add_one hlen
    exact ⟨d, digits ++ rest, hhex.all d List.mem_cons_self, Or.inl rfl⟩
  | braced hhex hne rest =>
    obtain ⟨d, digits, rfl⟩ := List.exists_cons_of_ne_nil hne
    exact ⟨d, digits ++ '\x7d' :: rest, hhex.all d List.mem_cons_self, Or.inr rfl⟩

/-- A plus sign is no digit. -/
theorem Signed.malformed {n : Nat} {rest : List Char} (h : Signed c s n rest) : Malformed c s := by
  have hplus : ¬Text.isDigitOf 16 '+' := by decide
  have hbrace : ¬Text.isDigitOf 16 '\x7b' := by decide
  cases h with
  | byte hhex hlen rest =>
    refine ⟨Or.inl rfl, fun hwell => ?_⟩
    obtain ⟨d, t, hd, heq | heq⟩ := hwell.front
    · exact hplus ((List.cons.inj heq).1 ▸ hd)
    · simp at heq
  | unit hhex hlen rest =>
    refine ⟨Or.inr rfl, fun hwell => ?_⟩
    obtain ⟨d, t, hd, heq | heq⟩ := hwell.front
    · exact hplus ((List.cons.inj heq).1 ▸ hd)
    · simp at heq
  | braced hhex hne hfits rest =>
    refine ⟨Or.inr rfl, fun hwell => ?_⟩
    obtain ⟨d, t, hd, heq | heq⟩ := hwell.front
    · exact hbrace ((List.cons.inj heq).1 ▸ hd)
    · exact hplus ((List.cons.inj (List.cons.inj heq).2).1 ▸ hd)

/-- An escape that is malformed is not taken for that of a low surrogate. -/
theorem lowSurrogate?_malformed (h : Malformed c s) : lowSurrogate? ('\\' :: c :: s) = none := by
  by_contra hne
  obtain ⟨low, hlow⟩ := Option.ne_none_iff_exists'.1 hne
  obtain ⟨hrange, w, rest, hsplit, hw, hnumber⟩ := lowSurrogate?_cases hlow
  obtain ⟨-, hsplit⟩ := List.cons.inj hsplit
  obtain ⟨rfl, rfl⟩ := List.cons.inj hsplit
  rcases number_cases hnumber with hhex | ⟨digits, rfl, hhex⟩
  · exact h.malformed (.unit hhex hw rest)
  · -- Three digits are too few for a surrogate.
    have hlt := hhex.lt_pow
    rw [Nat.succ.inj hw] at hlt
    omega

/-- What is read of a malformed escape and of all behind it, with a sign or without. -/
theorem unescape_malformed (h : Malformed c s) (hsign : ¬∃ n rest, Signed c s n rest) :
    unescape ('\\' :: c :: s) = Text.replacement :: unescape s := by
  rw [unescape_escape, escape_malformed h hsign, List.drop_zero, List.singleton_append]

theorem unescape_signed {n : Nat} {rest : List Char} (h : Signed c s n rest) :
    ∃ w, s = w ++ rest ∧ w ≠ [] ∧ unescape s = w ++ unescape rest ∧
      unescape ('\\' :: c :: s) = (Text.scalar? n).getD Text.replacement :: unescape rest := by
  obtain ⟨w, rfl, hne, hplain, hescape⟩ := escape_signed h
  exact ⟨w, rfl, hne, unescape_append_plain hplain rest, unescape_of_escape hescape⟩

end Malformed

/-- The text with the given quotes around it. -/
def quoted (quote : Char) (s : List Char) : List Char := quote :: s ++ [quote]

/-- A malformed escape in a literal is read as one replacement character, with all behind its letter read as if it
stood alone, exactly if there is no sign in front of digits. With a sign the character of the number is read. -/
theorem value_malformed_iff {quote : Char} (hquote : quote.utf8Size = 1) {p s : List Char} {c : Char}
    (hp : isWhole p) (h : Malformed c s) :
    (value (quoted quote (p ++ '\\' :: c :: s)) =
        value (quoted quote p) ++ Text.replacement :: value (quoted quote s) ↔
      ¬∃ n rest, Signed c s n rest) ∧
    ∀ n rest, Signed c s n rest →
      value (quoted quote (p ++ '\\' :: c :: s)) =
        value (quoted quote p) ++ (Text.scalar? n).getD Text.replacement :: value (quoted quote rest) := by
  simp only [quoted, value_quoted hquote, unescape_append (lowSurrogate?_malformed h) hp]
  refine ⟨⟨?_, ?_⟩, ?_⟩
  · rintro heq ⟨n, rest, hsigned⟩
    obtain ⟨w, -, hne, hplain, hread⟩ := unescape_signed hsigned
    rw [hread, hplain] at heq
    have hlen := congrArg List.length (List.append_cancel_left heq)
    have hpos := List.length_pos_of_ne_nil hne
    simp only [List.length_cons, List.length_append] at hlen
    omega
  · intro hsign
    rw [unescape_malformed h hsign]
  · intro n rest hsigned
    obtain ⟨w, -, -, -, hread⟩ := unescape_signed hsigned
    rw [hread]

/-- A plus sign and a digit behind `\x` are read for the character of number one. -/
theorem signedByte_value :
    isWhole ['a', '\\', '\\'] ∧ Malformed 'x' ['+', '1'] ∧
    value (quoted '"' ['a', '\\', '\\', '\\', 'x', '+', '1']) = ['a', '\\', '\x01'] ∧
    value (quoted '"' ['a', '\\', '\\', '\\', 'x', '+', '1']) ≠
      value (quoted '"' ['a', '\\', '\\']) ++ Text.replacement :: value (quoted '"' ['+', '1']) := by
  have hquote : ('"').utf8Size = 1 := by decide
  have hwhole : isWhole ['a', '\\', '\\'] := by decide
  have hdigit : Hex 1 ['1'] := by decide
  have hsigned : Signed 'x' ['+', '1'] 1 [] := .byte hdigit rfl []
  obtain ⟨hiff, hread⟩ := value_malformed_iff hquote hwhole hsigned.malformed
  refine ⟨hwhole, hsigned.malformed, ?_, ?_⟩
  · have hbefore : value (quoted '"' ['a', '\\', '\\']) = ['a', '\\'] := by decide +kernel
    have hbehind : value (quoted '"' []) = [] := by decide +kernel
    exact (hread 1 [] hsigned).trans (by rw [hbefore, hbehind]; rfl)
  · intro heq
    exact hiff.1 heq ⟨1, [], hsigned⟩

end ScriptTree.StringLiteral
