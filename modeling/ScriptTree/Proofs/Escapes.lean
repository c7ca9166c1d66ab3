import Mathlib.Data.List.Chain
import ScriptTree.Proofs.Spelling

/-! Literals whose escapes number no character. Their pieces mean one character each, or one for a high and a low
surrogate, and the replacement character where there is none. This is also what is read, but for numbers in
braces beyond thirty-two bits and for pairs of surrogates with a number in braces. -/
namespace ScriptTree.StringLiteral

/-- One piece of what stands between the given quotes. -/
inductive Piece (quote : Char) where
  /-- A character that stands for itself. -/
  | plain (c : Char) (hquote : c ≠ quote) (h : c ∉ ['\\', '\r', '\n'])
  /-- A backslash before a single character. -/
  | single (c : Char) (h : c ∉ ['x', 'u', '\r', '\n', '\u2028', '\u2029'])
  /-- `\x` before two digits. -/
  | byte (n : Nat) (digits : List Char) (h : Hex n digits) (hlen : digits.length = 2)
  /-- `\u` before four digits. -/
  | unit (n : Nat) (digits : List Char) (h : Hex n digits) (hlen : digits.length = 4)
  /-- `\u` before any number of digits in braces. -/
  | braced (n : Nat) (digits : List Char) (h : Hex n digits) (hne : digits ≠ [])
  /-- A backslash before the end of a line. -/
  | continuation (w : List Char) (h : w ∈ continuations)

/-- The character that two surrogates number together. -/
def surrogatePair? (high low : Nat) : Option Char :=
  if (0xD800 ≤ high ∧ high < 0xDC00) ∧ (0xDC00 ≤ low ∧ low < 0xE000) then
    some (Char.ofNat (0x10000 + (high - 0xD800) * 0x400 + (low - 0xDC00)))
  else none

theorem scalar?_of_surrogate {n : Nat} (h : 0xD800 ≤ n ∧ n < 0xE000) : Text.scalar? n = none := by
  have hvalid : ¬n.isValidChar := by
    unfold Nat.isValidChar
    omega
  rw [Text.scalar?, if_neg hvalid]

theorem surrogatePair?_eq_some_iff {high low : Nat} {c : Char} :
    surrogatePair? high low = some c ↔
      ((0xD800 ≤ high ∧ high < 0xDC00) ∧ (0xDC00 ≤ low ∧ low < 0xE000)) ∧
        Text.scalar? (0x10000 + (high - 0xD800) * 0x400 + (low - 0xDC00)) = some c := by
  unfold surrogatePair?
  split_ifs with h
  · have hvalid : (0x10000 + (high - 0xD800) * 0x400 + (low - 0xDC00)).isValidChar := by
      unfold Nat.isValidChar
      omega
    rw [Text.scalar?, if_pos hvalid]
    exact (and_iff_right h).symm
  · simp [h]

namespace Piece

variable {quote : Char}

def text : Piece quote → List Char
  | plain c _ _ => [c]
  | single c _ => ['\\', c]
  | byte _ digits _ _ => '\\' :: 'x' :: digits
  | unit _ digits _ _ => '\\' :: 'u' :: digits
  | braced _ digits _ _ => '\\' :: 'u' :: '\x7b' :: (digits ++ ['\x7d'])
  | continuation w _ => w

/-- The number after `\u`, in either spelling. -/
def code? : Piece quote → Option Nat
  | unit n _ _ _ => some n
  | braced n _ _ _ => some n
  | _ => none

/-- What a piece means on its own. A number of no character means the replacement character. -/
def alone : Piece quote → List Char
  | plain c _ _ => [c]
  | single c _ => [(letterEscapes.lookup c).getD c]
  | byte n _ _ _ => [(Text.scalar? n).getD Text.replacement]
  | unit n _ _ _ => [(Text.scalar? n).getD Text.replacement]
  | braced n _ _ _ => [(Text.scalar? n).getD Text.replacement]
  | continuation _ _ => []

/-- What two pieces mean together: the character of two surrogates, however they are spelled. -/
def joined? (p q : Piece quote) : Option Char :=
  match p.code?, q.code? with
  | some high, some low => surrogatePair? high low
  | _, _ => none

def isBraced : Piece quote → Bool
  | braced _ _ _ _ => true
  | _ => false

/-- Whether a number in braces is too large for thirty-two bits. -/
def isOversized : Piece quote → Bool
  | braced n _ _ _ => UInt32.size ≤ n
  | _ => false

/-- Whether two pieces are surrogates that belong together, with at least one of them in braces. -/
def isMixedPair (p q : Piece quote) : Bool :=
  (p.joined? q).isSome && (p.isBraced || q.isBraced)

/-- What is read of a piece on its own. The braces and digits of an oversized number remain as plain text. -/
def readAlone (p : Piece quote) : List Char :=
  if p.isOversized then Text.replacement :: p.text.drop 2 else p.alone

/-- What is read of two pieces together: the character of two surrogates without braces. -/
def readJoined? (p q : Piece quote) : Option Char :=
  if p.isBraced || q.isBraced then none else p.joined? q

theorem joined?_of_codes {p q : Piece quote} {high low : Nat} (hp : p.code? = some high)
    (hq : q.code? = some low) : p.joined? q = surrogatePair? high low := by
  rw [joined?, hp, hq]

theorem codes_of_joined? {p q : Piece quote} {c : Char} (h : p.joined? q = some c) :
    ∃ high low, p.code? = some high ∧ q.code? = some low ∧ surrogatePair? high low = some c := by
  unfold joined? at h
  split at h
  · next high low hp hq => exact ⟨high, low, hp, hq, h⟩
  · contradiction

theorem readJoined?_of_codes {p q : Piece quote} {high low : Nat} (hp : p.isBraced = false)
    (hq : q.isBraced = false) (hhigh : p.code? = some high) (hlow : q.code? = some low) :
    p.readJoined? q = surrogatePair? high low := by
  rw [readJoined?, hp, hq, joined?_of_codes hhigh hlow]
  rfl

theorem unit_of_code? {p : Piece quote} {n : Nat} (hp : p.isBraced = false) (h : p.code? = some n) :
    ∃ digits hn hlen, p = unit n digits hn hlen := by
  cases p with
  | unit m digits hm hlen =>
    obtain rfl := Option.some.inj h
    exact ⟨digits, hm, hlen, rfl⟩
  | _ => contradiction

theorem units_of_readJoined? {p q : Piece quote} {c : Char} (h : p.readJoined? q = some c) :
    ∃ high low, (∃ digits hn hlen, p = unit high digits hn hlen) ∧
      (∃ digits hn hlen, q = unit low digits hn hlen) ∧ surrogatePair? high low = some c := by
  unfold readJoined? at h
  split_ifs at h with hbraced
  simp only [Bool.or_eq_true, not_or, Bool.not_eq_true] at hbraced
  obtain ⟨high, low, hp, hq, hpair⟩ := codes_of_joined? h
  exact ⟨high, low, unit_of_code? hbraced.1 hp, unit_of_code? hbraced.2 hq, hpair⟩

theorem readAlone_of_fits {p : Piece quote} (h : p.isOversized = false) : p.readAlone = p.alone := by
  rw [readAlone, h, if_neg Bool.false_ne_true]

/-- Of an oversized number more is read than one character. -/
theorem length_alone_lt {p : Piece quote} (h : p.isOversized = true) :
    p.alone.length < p.readAlone.length := by
  rw [readAlone, h, if_pos rfl]
  cases p with
  | braced n digits hn hne => simp [alone, text]
  | _ => contradiction

theorem of_surrogate {p : Piece quote} {n : Nat} (h : p.code? = some n)
    (hn : 0xD800 ≤ n ∧ n < 0xE000) : p.isOversized = false ∧ p.alone = [Text.replacement] := by
  have hscalar := scalar?_of_surrogate hn
  cases p with
  | unit m digits hm hlen =>
    obtain rfl := Option.some.inj h
    exact ⟨rfl, by rw [alone, hscalar]; rfl⟩
  | braced m digits hm hne =>
    obtain rfl := Option.some.inj h
    have hfits : ¬UInt32.size ≤ m := Nat.not_le_of_lt (hn.2.trans (by decide))
    exact ⟨decide_eq_false hfits, by rw [alone, hscalar]; rfl⟩
  | _ => contradiction

/-- A low surrogate is not the first of two. -/
theorem joined?_of_low {p : Piece quote} {n : Nat} (h : p.code? = some n) (hn : 0xDC00 ≤ n)
    (q : Piece quote) : p.joined? q = none := by
  by_contra hne
  obtain ⟨c, hc⟩ := Option.ne_none_iff_exists'.1 hne
  obtain ⟨high, low, hhigh, -, hpair⟩ := codes_of_joined? hc
  obtain rfl := Option.some.inj (h.symm.trans hhigh)
  have := (surrogatePair?_eq_some_iff.1 hpair).1.1
  omega

end Piece

/-- The text of pieces, given what each is on its own and which two next to each other are one character. -/
def decodeWith {quote : Char} (joined? : Piece quote → Piece quote → Option Char)
    (alone : Piece quote → List Char) : List (Piece quote) → List Char
  | [] => []
  | [p] => alone p
  | p :: q :: ps =>
    match joined? p q with
    | some c => c :: decodeWith joined? alone ps
    | none => alone p ++ decodeWith joined? alone (q :: ps)

/-- A literal that is put together from pieces. -/
structure Literal where
  quote : Char
  oneByte : quote.utf8Size = 1
  pieces : List (Piece quote)

namespace Literal

def text (l : Literal) : List Char :=
  l.quote :: l.pieces.flatMap Piece.text ++ [l.quote]

/-- What the pieces of a literal mean. -/
def meaning (l : Literal) : List Char :=
  decodeWith Piece.joined? Piece.alone l.pieces

/-- What is read of the pieces of a literal. -/
def reading (l : Literal) : List Char :=
  decodeWith Piece.readJoined? Piece.readAlone l.pieces

end Literal

section Read

variable {quote : Char}

theorem letterEscape?_eq_lookup (c : Char) : letterEscape? c = letterEscapes.lookup c := by
  unfold letterEscape?
  split
  case h_8 =>
    refine (List.lookup_eq_none_iff.2 ?_).symm
    simp_all [letterEscapes]
  all_goals rfl

theorem escape_single {c : Char} (h : c ∉ ['x', 'u', '\r', '\n', '\u2028', '\u2029'])
    (s : List Char) : escape c s = ([(letterEscapes.lookup c).getD c], 0) := by
  rw [escape, letterEscape?_eq_lookup]
  cases letterEscapes.lookup c with
  | some d => rfl
  | none => simp_all

theorem unescape_append_plain {s : List Char} (h : ∀ c ∈ s, c ≠ '\\') (rest : List Char) :
    unescape (s ++ rest) = s ++ unescape rest := by
  induction s with
  | nil => rfl
  | cons c s ih =>
    rw [List.forall_mem_cons] at h
    rw [List.cons_append, unescape_plain h.1, ih h.2, List.cons_append]

theorem lowSurrogate?_of_ne {s : List Char} (h : ∀ t, s ≠ '\\' :: 'u' :: t) : lowSurrogate? s = none := by
  unfold lowSurrogate?
  split
  · exact absurd rfl (h _)
  · rfl

theorem lowSurrogate?_unit {n : Nat} {digits : List Char} (h : Hex n digits)
    (hlen : digits.length = 4) (rest : List Char) :
    lowSurrogate? ('\\' :: 'u' :: (digits ++ rest)) =
      if 0xDC00 ≤ n ∧ n < 0xE000 then some n else none := by
  have hdigits := h.hexPrefix? rest (Or.inr hlen)
  rw [hlen] at hdigits
  simp [lowSurrogate?, hdigits, Option.filter_some]

/-- A brace is no digit, so a number in braces is not taken for a low surrogate. -/
theorem lowSurrogate?_braced (s : List Char) : lowSurrogate? ('\\' :: 'u' :: '\x7b' :: s) = none := by
  have hnumber (t : List Char) : hexNumber? ('\x7b' :: t) = none := by
    have hdigit : Text.isDigitOf 16 '\x7b' = false := by decide
    simp [hexNumber?, Text.number?, hdigit]
  have hdigits : hexPrefix? 4 ('\x7b' :: s) = none := by
    unfold hexPrefix?
    split_ifs
    · rw [List.take_succ_cons, hnumber]
    · rfl
  rw [lowSurrogate?, hdigits, Option.filter_none]

/-- Only four digits right behind `\u` are taken for a low surrogate. -/
theorem lowSurrogate?_eq_some {ps : List (Piece quote)} {low : Nat}
    (h : lowSurrogate? (ps.flatMap Piece.text) = some low) :
    ∃ q rest, ps = q :: rest ∧ q.isBraced = false ∧ q.code? = some low ∧
      0xDC00 ≤ low ∧ low < 0xE000 := by
  cases ps with
  | nil => contradiction
  | cons q rest =>
    rw [List.flatMap_cons] at h
    refine ⟨q, rest, rfl, ?_⟩
    cases q with
    | plain c hquote hc =>
      have hne : c ≠ '\\' := List.ne_of_not_mem_cons hc
      rw [lowSurrogate?_of_ne (by simp [Piece.text, hne])] at h
      contradiction
    | single c hc =>
      have hne : c ≠ 'u' := List.ne_of_not_mem_cons (List.not_mem_of_not_mem_cons hc)
      rw [lowSurrogate?_of_ne (by simp [Piece.text, hne])] at h
      contradiction
    | byte n digits hn hlen => contradiction
    | unit n digits hn hlen =>
      have hlow := (lowSurrogate?_unit hn hlen _).symm.trans h
      split_ifs at hlow with hrange
      obtain rfl := Option.some.inj hlow
      exact ⟨rfl, rfl, hrange⟩
    | braced n digits hn hne =>
      have hlow := (lowSurrogate?_braced _).symm.trans h
      contradiction
    | continuation w hw =>
      simp only [continuations, List.mem_cons, List.not_mem_nil, or_false] at hw
      rcases hw with rfl | rfl | rfl | rfl | rfl <;> contradiction

theorem head?_text (ps : List (Piece quote)) : (ps.flatMap Piece.text).head? ≠ some '\n' := by
  cases ps with
  | nil => simp
  | cons p ps =>
    rw [List.flatMap_cons]
    cases p with
    | plain c hquote hc =>
      have hne : c ≠ '\n' := fun heq => hc (by simp [heq])
      simpa [Piece.text] using hne
    | continuation w hw =>
      simp only [continuations, List.mem_cons, List.not_mem_nil, or_false] at hw
      rcases hw with rfl | rfl | rfl | rfl | rfl <;> simp [Piece.text]
    | _ => simp [Piece.text]

/-- A piece is read on its own, whatever pieces follow, unless it is joined to the next. -/
theorem unescape_piece (p : Piece quote) (ps : List (Piece quote))
    (h : ∀ q ∈ ps.head?, p.readJoined? q = none) :
    unescape (p.text ++ ps.flatMap Piece.text) = p.readAlone ++ unescape (ps.flatMap Piece.text) := by
  cases p with
  | plain c hquote hc => exact unescape_plain (List.ne_of_not_mem_cons hc) _
  | single c hc => exact unescape_of_escape (w := []) (escape_single hc _)
  | byte n digits hn hlen => exact unescape_of_escape (hn.escape_byte hlen _)
  | unit n digits hn hlen =>
    have hescape : unicodeEscape (digits ++ ps.flatMap Piece.text) = (Text.scalar? n, digits.length) := by
      rw [hn.unicodeEscape hlen, hlen]
      split_ifs with hhigh
      · -- A low surrogate right behind it would be joined to it.
        have hlow : lowSurrogate? (ps.flatMap Piece.text) = none := by
          by_contra hne
          obtain ⟨low, hlow⟩ := Option.ne_none_iff_exists'.1 hne
          obtain ⟨q, rest, rfl, hbraced, hcode, hrange⟩ := lowSurrogate?_eq_some hlow
          have hjoined := h q rfl
          rw [Piece.readJoined?_of_codes rfl hbraced rfl hcode, surrogatePair?,
            if_pos ⟨hhigh, hrange⟩] at hjoined
          contradiction
        rw [hlow, scalar?_of_surrogate (by omega)]
      · rfl
    refine unescape_of_escape ?_
    simp [escape, letterEscape?, hescape]
  | braced n digits hn hne =>
    have hescape := hn.escape_braced hne (ps.flatMap Piece.text)
    have hplain : ∀ c ∈ '\x7b' :: (digits ++ ['\x7d']), c ≠ '\\' := by
      have hdigits : ∀ c ∈ digits, c ≠ '\\' := fun c hc => hn.ne_of_mem hc '\\' (by decide)
      simpa [or_imp, forall_and] using hdigits
    unfold Piece.readAlone Piece.isOversized
    by_cases hfits : n < UInt32.size
    · rw [if_pos hfits] at hescape
      rw [if_neg (by simpa using hfits)]
      exact unescape_of_escape hescape
    · rw [if_neg hfits] at hescape
      rw [if_pos (by simpa using hfits), Piece.text, List.cons_append, List.cons_append, unescape_escape,
        hescape, List.drop_zero, unescape_append_plain hplain]
      rfl
  | continuation w hw => exact unescape_continuation hw (head?_text ps)

/-- Two surrogates with four digits each are read as the character that they number together. -/
theorem unescape_joined {p q : Piece quote} {c : Char} (h : p.readJoined? q = some c)
    (rest : List Char) : unescape (p.text ++ (q.text ++ rest)) = c :: unescape rest := by
  obtain ⟨high, low, ⟨s, hhigh, hs, rfl⟩, ⟨t, hlow, ht, rfl⟩, hpair⟩ := Piece.units_of_readJoined? h
  obtain ⟨⟨hfirst, hsecond⟩, hscalar⟩ := surrogatePair?_eq_some_iff.1 hpair
  have hescape : unicodeEscape (s ++ '\\' :: 'u' :: (t ++ rest)) = (some c, 10) := by
    rw [hhigh.unicodeEscape hs, if_pos hfirst, lowSurrogate?_unit hlow ht, if_pos hsecond]
    simp only [hscalar]
  have hwhole : escape 'u' ((s ++ '\\' :: 'u' :: t) ++ rest) = ([c], (s ++ '\\' :: 'u' :: t).length) := by
    simp [escape, letterEscape?, hescape, hs, ht]
  have hread := unescape_of_escape hwhole
  rw [List.append_assoc] at hread
  exact hread

/-- What is read of a row of pieces. -/
theorem unescape_pieces (ps : List (Piece quote)) :
    unescape (ps.flatMap Piece.text) = decodeWith Piece.readJoined? Piece.readAlone ps := by
  fun_induction decodeWith Piece.readJoined? Piece.readAlone ps with
  | case1 => rw [List.flatMap_nil, unescape]
  | case2 p =>
    have hread := unescape_piece p [] (by simp)
    rw [List.flatMap_nil, unescape, List.append_nil] at hread
    simpa using hread
  | case3 p q ps c hjoined ih =>
    rw [List.flatMap_cons, List.flatMap_cons, unescape_joined hjoined, ih]
  | case4 p q ps hjoined ih =>
    rw [List.flatMap_cons, unescape_piece p (q :: ps) (by simpa using hjoined), ih]

theorem value_text (l : Literal) : value l.text = l.reading := by
  rw [Literal.text, value_quoted l.oneByte, unescape_pieces, Literal.reading]

end Read

section Compare

variable {quote : Char}

/-- Whether what is read equals what is meant under a condition, and is longer without it. -/
structure Agrees (cond : Prop) (meant read : List Char) : Prop where
  eq : cond → read = meant
  lt : ¬cond → meant.length < read.length

namespace Agrees

variable {a b : Prop} {m r n s : List Char}

theorem length_le (h : Agrees a m r) : m.length ≤ r.length := by
  by_cases ha : a
  · rw [h.eq ha]
  · exact (h.lt ha).le

theorem eq_iff (h : Agrees a m r) : r = m ↔ a := by
  refine ⟨?_, h.eq⟩
  rintro rfl
  by_contra ha
  exact Nat.lt_irrefl _ (h.lt ha)

theorem append (h : Agrees a m r) (h' : Agrees b n s) : Agrees (a ∧ b) (m ++ n) (r ++ s) := by
  refine ⟨fun hab => by rw [h.eq hab.1, h'.eq hab.2], fun hab => ?_⟩
  have hle := h.length_le
  have hle' := h'.length_le
  rw [List.length_append, List.length_append]
  by_cases ha : a
  · have hlt := h'.lt fun hb => hab ⟨ha, hb⟩
    omega
  · have hlt := h.lt ha
    omega

end Agrees

/-- Whether pieces can be read for what they mean: no number is oversized, and no pair of surrogates mixed. -/
structure IsReadable (ps : List (Piece quote)) : Prop where
  fits : ∀ p ∈ ps, p.isOversized = false
  unmixed : ps.IsChain fun p q => p.isMixedPair q = false

theorem isReadable_cons_cons {p q : Piece quote} {ps : List (Piece quote)} :
    IsReadable (p :: q :: ps) ↔
      p.isOversized = false ∧ p.isMixedPair q = false ∧ IsReadable (q :: ps) := by
  constructor
  · rintro ⟨hfits, hunmixed⟩
    rw [List.forall_mem_cons] at hfits
    rw [List.isChain_cons_cons] at hunmixed
    exact ⟨hfits.1, hunmixed.1, hfits.2, hunmixed.2⟩
  · rintro ⟨hp, hpq, hfits, hunmixed⟩
    exact ⟨List.forall_mem_cons.2 ⟨hp, hfits⟩, List.isChain_cons_cons.2 ⟨hpq, hunmixed⟩⟩

theorem isReadable_singleton {p : Piece quote} : IsReadable [p] ↔ p.isOversized = false :=
  ⟨fun h => h.fits p List.mem_cons_self,
    fun h => ⟨by simpa using h, List.isChain_singleton p⟩⟩

/-- A piece that is never joined to the next one does not matter for those behind it. -/
theorem isReadable_cons_of_apart {p : Piece quote} {ps : List (Piece quote)}
    (hp : p.isOversized = false) (hapart : ∀ q, p.joined? q = none) :
    IsReadable (p :: ps) ↔ IsReadable ps := by
  cases ps with
  | nil => exact iff_of_true (isReadable_singleton.2 hp) ⟨nofun, List.isChain_nil⟩
  | cons q ps =>
    have hunmixed : p.isMixedPair q = false := by rw [Piece.isMixedPair, hapart]; rfl
    rw [isReadable_cons_cons]
    exact ⟨fun h => h.2.2, fun h => ⟨hp, hunmixed, h⟩⟩

theorem decodeWith_cons_of_apart {joined? : Piece quote → Piece quote → Option Char}
    {alone : Piece quote → List Char} {p : Piece quote} (hapart : ∀ q, joined? p q = none)
    (ps : List (Piece quote)) :
    decodeWith joined? alone (p :: ps) = alone p ++ decodeWith joined? alone ps := by
  cases ps with
  | nil => rw [decodeWith, decodeWith, List.append_nil]
  | cons q ps => rw [decodeWith, hapart]

theorem agrees_alone (p : Piece quote) : Agrees (p.isOversized = false) p.alone p.readAlone :=
  ⟨Piece.readAlone_of_fits, fun h => Piece.length_alone_lt (by simpa using h)⟩

/-- What is read of two surrogates next to each other agrees with their meaning unless one is in braces. -/
theorem agrees_joined {p q : Piece quote} {ps : List (Piece quote)} {c : Char}
    (hjoined : p.joined? q = some c)
    (ih : Agrees (IsReadable ps) (decodeWith Piece.joined? Piece.alone ps)
      (decodeWith Piece.readJoined? Piece.readAlone ps)) :
    Agrees (IsReadable (p :: q :: ps)) (c :: decodeWith Piece.joined? Piece.alone ps)
      (decodeWith Piece.readJoined? Piece.readAlone (p :: q :: ps)) := by
  obtain ⟨high, low, hp, hq, hpair⟩ := Piece.codes_of_joined? hjoined
  obtain ⟨⟨hhigh, hlow⟩, -⟩ := surrogatePair?_eq_some_iff.1 hpair
  obtain ⟨hpfits, hpalone⟩ := Piece.of_surrogate hp (by omega)
  obtain ⟨hqfits, hqalone⟩ := Piece.of_surrogate hq (by omega)
  have hapart := Piece.joined?_of_low hq hlow.1
  rw [isReadable_cons_cons, isReadable_cons_of_apart hqfits hapart]
  by_cases hbraced : p.isBraced || q.isBraced
  · -- Each of the two is read on its own, for a replacement character.
    have hmixed : p.isMixedPair q = true := by simp [Piece.isMixedPair, hjoined, hbraced]
    have hread : decodeWith Piece.readJoined? Piece.readAlone (p :: q :: ps) =
        Text.replacement :: Text.replacement :: decodeWith Piece.readJoined? Piece.readAlone ps := by
      have hfirst : p.readJoined? q = none := by rw [Piece.readJoined?, if_pos hbraced]
      have hsecond (r : Piece quote) : q.readJoined? r = none := by
        rw [Piece.readJoined?, hapart, ite_self]
      rw [decodeWith, hfirst, decodeWith_cons_of_apart hsecond, Piece.readAlone_of_fits hpfits,
        Piece.readAlone_of_fits hqfits, hpalone, hqalone]
      rfl
    have hle := ih.length_le
    rw [hread]
    refine ⟨fun h => absurd hmixed (by simp [h.2.1]), fun _ => ?_⟩
    simp only [List.length_cons]
    omega
  · have hmixed : p.isMixedPair q = false := by simp [Piece.isMixedPair, hbraced]
    have hread : decodeWith Piece.readJoined? Piece.readAlone (p :: q :: ps) =
        c :: decodeWith Piece.readJoined? Piece.readAlone ps := by
      have hpair : p.readJoined? q = some c := by rw [Piece.readJoined?, if_neg hbraced, hjoined]
      rw [decodeWith, hpair]
    rw [hread]
    refine ⟨fun h => by rw [ih.eq h.2.2], fun h => ?_⟩
    have hlt := ih.lt fun hps => h ⟨hpfits, hmixed, hps⟩
    simpa using hlt

/-- Pieces are read for what they mean if they are readable, and for more characters if they are not. -/
theorem agrees_pieces (ps : List (Piece quote)) :
    Agrees (IsReadable ps) (decodeWith Piece.joined? Piece.alone ps)
      (decodeWith Piece.readJoined? Piece.readAlone ps) := by
  fun_induction decodeWith Piece.joined? Piece.alone ps with
  | case1 => exact ⟨fun _ => rfl, fun h => absurd ⟨nofun, List.isChain_nil⟩ h⟩
  | case2 p =>
    rw [isReadable_singleton, decodeWith]
    exact agrees_alone p
  | case3 p q ps c hjoined ih => exact agrees_joined hjoined ih
  | case4 p q ps hjoined ih =>
    have hread : p.readJoined? q = none := by rw [Piece.readJoined?, hjoined, ite_self]
    have hunmixed : p.isMixedPair q = false := by rw [Piece.isMixedPair, hjoined]; rfl
    have hcons : IsReadable (p :: q :: ps) ↔ p.isOversized = false ∧ IsReadable (q :: ps) := by
      rw [isReadable_cons_cons, hunmixed, and_iff_right rfl]
    rw [hcons, decodeWith, hread]
    exact (agrees_alone p).append ih

end Compare

/-- A literal is read piece by piece, and its value is what its pieces mean exactly if no number in braces is
oversized and no two surrogates that belong together have one in braces. -/
theorem value_eq_meaning_iff (l : Literal) :
    value l.text = l.reading ∧ (value l.text = l.meaning ↔ IsReadable l.pieces) := by
  have hread := value_text l
  refine ⟨hread, ?_⟩
  rw [hread]
  exact (agrees_pieces l.pieces).eq_iff

/-- A number of nine digits in braces, and a pair of surrogates of which the first is in braces. -/
def strayEscapes : Literal where
  quote := '"'
  oneByte := by decide
  pieces :=
    [.braced 0x100000000 ['1', '0', '0', '0', '0', '0', '0', '0', '0'] (by decide) (by decide),
      .braced 0xD83D ['D', '8', '3', 'D'] (by decide) (by decide),
      .unit 0xDE00 ['D', 'E', '0', '0'] (by decide) (by decide)]

/-- One replacement character and one character of a pair are meant, but fourteen characters are read. -/
theorem strayEscapes_value :
    strayEscapes.text = "\"\\u\x7b100000000\x7d\\u\x7bD83D\x7d\\uDE00\"".toList ∧
    strayEscapes.meaning = [Text.replacement, '😀'] ∧
    value strayEscapes.text =
      [Text.replacement, '\x7b', '1', '0', '0', '0', '0', '0', '0', '0', '0', '\x7d', Text.replacement,
        Text.replacement] ∧
    value strayEscapes.text ≠ strayEscapes.meaning := by
  obtain ⟨hread, hiff⟩ := value_eq_meaning_iff strayEscapes
  refine ⟨by decide, by decide, ?_, ?_⟩
  · rw [hread]
    decide
  · rw [Ne, hiff]
    intro h
    exact absurd (h.fits _ List.mem_cons_self) (by decide)

end ScriptTree.StringLiteral
