import ScriptTree.Proofs.Malformed
import ScriptTree.Proofs.Text.Decoding

/-! Reading a string literal with cuts at bytes and in numbers of thirty-two bits. A cut off the boundaries fails
here, and so does a number that does not fit. Neither happens: the same is read as by characters, each reader
takes exactly what it reads, and the turns of the reading take the whole text between the quotes. -/
namespace ScriptTree

namespace Text

/-- A high and a low surrogate are the code units of one character beyond the first plane. -/
theorem exists_utf16Units {u v : UInt16} (hu : 0xD800 ≤ u.toNat ∧ u.toNat < 0xDC00)
    (hv : 0xDC00 ≤ v.toNat ∧ v.toNat < 0xE000) :
    ∃ c : Char, c.toNat = 0x10000 + (u.toNat - 0xD800) * 0x400 + (v.toNat - 0xDC00) ∧
      (0x10000 ≤ c.toNat ∧ c.toNat ≤ 0x10FFFF) ∧ utf16Units c = [u, v] := by
  have hvalid : (0x10000 + (u.toNat - 0xD800) * 0x400 + (v.toNat - 0xDC00)).isValidChar := by
    unfold Nat.isValidChar
    omega
  have hnumber := toNat_ofNat_of_valid hvalid
  refine ⟨_, hnumber, by omega, ?_⟩
  have hhigh : 0xD800 + ((u.toNat - 0xD800) * 0x400 + (v.toNat - 0xDC00)) / 0x400 = u.toNat := by omega
  have hlow : 0xDC00 + ((u.toNat - 0xD800) * 0x400 + (v.toNat - 0xDC00)) % 0x400 = v.toNat := by omega
  rw [utf16Units, hnumber, if_neg (by omega), Nat.add_assoc, Nat.add_sub_cancel_left, hhigh, hlow,
    UInt16.ofNat_toNat, UInt16.ofNat_toNat]

end Text

namespace StringLiteral

/-- What can go wrong in reading by bytes. -/
inductive Fault where
  /-- A cut beyond the end of the text or inside a character. -/
  | cut
  /-- A number that thirty-two bits do not hold. -/
  | range
  deriving DecidableEq, Repr

namespace Bytewise

/-- The bytes `start` to `stop` of a text, which have to be there. -/
def cut (s : List Char) (start stop : Nat) : Except Fault (List Char) :=
  match Text.slice? s start stop with
  | some w => .ok w
  | none => .error .cut

/-- The word of a number, which has to fit. -/
def word (n : Int) : Except Fault UInt32 :=
  if 0 ≤ n ∧ n < UInt32.size then .ok (UInt32.ofNat n.toNat) else .error .range

/-- The word that digits spell. -/
def word? (digits : List Char) : Option UInt32 := (hexNumber? digits).map UInt32.ofNat

/-- The byte at which a character first stands. -/
def find? (c : Char) (s : List Char) : Option Nat :=
  if c ∈ s then some (Text.byteLength (s.takeWhile (· ≠ c))) else none

/-- The word that the first `n` bytes spell, and the text behind as many characters. If there is none, the text
is left as it is. -/
def takeDigits (n : Nat) (s : List Char) : Option UInt32 × List Char :=
  match (Text.takeBytes? n s).bind word? with
  | some v => (some v, s.drop n)
  | none => (none, s)

/-- The low surrogate that the four bytes behind `\u` spell. -/
def lowWord? : List Char → Option UInt32
  | '\\' :: 'u' :: s =>
    ((Text.takeBytes? 4 s).bind word?).filter fun n => 0xDC00 ≤ n.toNat ∧ n.toNat < 0xE000
  | _ => none

/-- The number of the character that two surrogates encode. -/
def pairWord (high low : UInt32) : Except Fault UInt32 := do
  let upper ← word (high.toNat - 0xD800)
  let shifted ← word (upper.toNat * 2 ^ 10)
  let sum ← word (0x10000 + shifted.toNat)
  let lower ← word (low.toNat - 0xDC00)
  word (sum.toNat + lower.toNat)

/-- What is read behind `\u`, and the text behind it. -/
def takeUnicode (s : List Char) : Except Fault (Option Char × List Char) :=
  if s.head? = some '\x7b' then
    match find? '\x7d' s with
    | none => .ok (none, s)
    | some close => do
      let digits ← cut s 1 close
      match word? digits with
      | none => .ok (none, s)
      | some n => .ok (Text.scalar? n.toNat, s.drop (close + 1))
  else
    match takeDigits 4 s with
    | (none, rest) => .ok (none, rest)
    | (some high, rest) =>
      if 0xD800 ≤ high.toNat ∧ high.toNat < 0xDC00 then
        match lowWord? rest with
        | none => .ok (none, rest)
        | some low => do
          let n ← pairWord high low
          .ok (Text.scalar? n.toNat, rest.drop 6)
      else .ok (Text.scalar? high.toNat, rest)

/-- One turn of the reading, at the character `c` with `s` behind it: what it gives, and the text behind what it
takes. -/
def turn (c : Char) (s : List Char) : Except Fault (List Char × List Char) :=
  if c ≠ '\\' then .ok ([c], s)
  else match s with
    | [] => .ok ([], [])
    | d :: t => match letterEscape? d with
      | some e => .ok ([e], t)
      | none =>
        if d = 'x' then
          .ok ([((takeDigits 2 t).1.bind fun n => Text.scalar? n.toNat).getD Text.replacement],
            (takeDigits 2 t).2)
        else if d = 'u' then do
          let (e, rest) ← takeUnicode t
          .ok ([e.getD Text.replacement], rest)
        else if d = '\r' then .ok ([], if t.head? = some '\n' then t.tail else t)
        else if d = '\n' ∨ d = '\u2028' ∨ d = '\u2029' then .ok ([], t)
        else .ok ([d], t)

/-- Whether a text is a number of thirty-two bits in digits of base sixteen. A plus sign may stand in front. -/
inductive Numeral (n : Nat) : List Char → Prop
  | plain {digits : List Char} (hne : digits ≠ []) (h : Hex n digits) (hfits : n < UInt32.size) :
      Numeral n digits
  | signed {digits : List Char} (hne : digits ≠ []) (h : Hex n digits) (hfits : n < UInt32.size) :
      Numeral n ('+' :: digits)

/-- What is read of `n` characters as digits, the text taken and the text behind it. The characters have one byte
each. -/
inductive DigitsRead (n : Nat) : Option UInt32 → List Char → List Char → Prop
  | nothing {s : List Char} (h : ∀ w rest, s = w ++ rest → w.length = n → ∀ v, ¬Numeral v w) :
      DigitsRead n none [] s
  | number {v : UInt32} {w rest : List Char} (hlen : w.length = n) (hbytes : ∀ c ∈ w, c.utf8Size = 1)
      (h : Numeral v.toNat w) : DigitsRead n (some v) w rest

/-- Whether the escape of a low surrogate stands at the front of a text. -/
def LowSurrogateAhead (s : List Char) : Prop :=
  ∃ low w rest, s = '\\' :: 'u' :: (w ++ rest) ∧ w.length = 4 ∧ Numeral low w ∧
    0xDC00 ≤ low ∧ low < 0xE000

/-- What is read behind `\u`, the text taken and the text behind it. -/
inductive UnicodeRead : Option Char → List Char → List Char → Prop
  /-- There is no number between an opening brace and the first closing one. -/
  | brokenBraces {s : List Char} (h : ∀ digits rest, s = digits ++ '\x7d' :: rest → '\x7d' ∉ digits →
      ∀ n, ¬Numeral n digits) : UnicodeRead none [] ('\x7b' :: s)
  | braced {n : Nat} {digits rest : List Char} (hclose : '\x7d' ∉ digits) (h : Numeral n digits) :
      UnicodeRead (Text.scalar? n) ('\x7b' :: (digits ++ ['\x7d'])) rest
  | badDigits {s : List Char} (hbrace : s.head? ≠ some '\x7b')
      (h : ∀ w rest, s = w ++ rest → w.length = 4 → ∀ n, ¬Numeral n w) : UnicodeRead none [] s
  | basic {c : Char} {w rest : List Char} (hlen : w.length = 4) (h : Numeral c.toNat w)
      (hbasic : c.toNat < 0x10000) : UnicodeRead (some c) w rest
  | unpaired {n : Nat} {w rest : List Char} (hlen : w.length = 4) (h : Numeral n w)
      (hsurrogate : 0xD800 ≤ n ∧ n < 0xE000) (halone : n < 0xDC00 → ¬LowSurrogateAhead rest) :
      UnicodeRead none w rest
  /-- The digits of two code units of UTF-16 that encode a character beyond the first plane. -/
  | pair {c : Char} {high low : UInt16} {w v rest : List Char} (hw : w.length = 4)
      (hhigh : Numeral high.toNat w) (hv : v.length = 4) (hlow : Numeral low.toNat v)
      (hc : Text.utf16Units c = [high, low]) (hrange : 0x10000 ≤ c.toNat ∧ c.toNat ≤ 0x10FFFF) :
      UnicodeRead (some c) (w ++ '\\' :: 'u' :: v) rest

/-- A turn of the reading: what it takes of the text and what it gives for that. -/
structure Turn where
  taken : List Char
  given : List Char

/-- The turns in which a text is read to its end. -/
inductive Turns : List Char → List Turn → Prop
  | done : Turns [] []
  | next {c : Char} {s taken given rest : List Char} {later : List Turn}
      (h : turn c s = .ok (given, rest)) (hsplit : c :: s = taken ++ rest) (hlater : Turns rest later) :
      Turns (c :: s) (⟨taken, given⟩ :: later)

section Digits

variable {digits s : List Char} {m n : Nat}

theorem hexNumber?_eq_some_iff : hexNumber? digits = some n ↔ Numeral n digits := by
  constructor
  · intro h
    obtain ⟨hfits, ⟨hne, hhex⟩ | ⟨rest, rfl, hne, hhex⟩⟩ := hexNumber?_cases h
    · exact .plain hne hhex hfits
    · exact .signed hne hhex hfits
  · rintro (⟨hne, hhex, hfits⟩ | ⟨hne, hhex, hfits⟩)
    · rw [hhex.hexNumber? hne, if_pos hfits]
    · exact hexNumber?_signed hhex hne hfits

theorem hexNumber?_eq_none_iff : hexNumber? digits = none ↔ ∀ n, ¬Numeral n digits := by
  simp only [Option.eq_none_iff_forall_ne_some, ne_eq, hexNumber?_eq_some_iff]

theorem utf8Size_of_hexNumber? (h : hexNumber? digits = some n) : ∀ c ∈ digits, c.utf8Size = 1 := by
  have hall : ∀ p ∈ hexDigits, p.1.utf8Size = 1 := by decide
  have hhex {s : List Char} (hs : Hex n s) : ∀ c ∈ s, c.utf8Size = 1 :=
    fun c hc => hall _ (mem_hexDigits_of_isDigitOf (hs.all c hc))
  obtain ⟨-, ⟨-, hdigits⟩ | ⟨rest, rfl, -, hdigits⟩⟩ := hexNumber?_cases h
  · exact hhex hdigits
  · rw [List.forall_mem_cons]
    exact ⟨by decide, hhex hdigits⟩

theorem lt_of_hexPrefix? (h : hexPrefix? m s = some n) : n < UInt32.size := by
  obtain ⟨w, rest, -, -, hnumber⟩ := hexPrefix?_eq_some_iff.1 h
  exact (hexNumber?_cases hnumber).1

/-- Digits take one byte each, so that it makes no difference whether bytes or characters are counted. -/
theorem bind_hexNumber?_takeBytes? (n : Nat) (s : List Char) :
    (Text.takeBytes? n s).bind hexNumber? = hexPrefix? n s := by
  ext v
  rw [Option.bind_eq_some_iff, hexPrefix?_eq_some_iff]
  simp only [Text.takeBytes?_eq_some_iff]
  constructor
  · rintro ⟨w, ⟨rest, hsplit, hlen⟩, hv⟩
    exact ⟨w, rest, hsplit, by rw [← hlen, Text.byteLength_eq_length (utf8Size_of_hexNumber? hv)], hv⟩
  · rintro ⟨w, rest, hsplit, hlen, hv⟩
    exact ⟨w, ⟨rest, hsplit, by rw [← hlen, Text.byteLength_eq_length (utf8Size_of_hexNumber? hv)]⟩, hv⟩

theorem bind_word?_takeBytes? (n : Nat) (s : List Char) :
    (Text.takeBytes? n s).bind word? = (hexPrefix? n s).map UInt32.ofNat := by
  rw [← bind_hexNumber?_takeBytes?, Option.map_bind]
  rfl

end Digits

section Unicode

theorem ok_bind {α β : Type} (a : α) (f : α → Except Fault β) : (Except.ok a >>= f) = f a := rfl

theorem word_eq {n : Int} (m : Nat) (h : n = m) (hfits : m < UInt32.size) :
    word n = .ok (UInt32.ofNat m) := by
  rw [word, h, if_pos (by omega), Int.toNat_natCast]

/-- The number of the character of two surrogates fits at each step on the way to it. -/
theorem pairWord_eq {high low : UInt32} {upper lower : Nat} (hhigh : high.toNat = 0xD800 + upper)
    (hupper : upper < 0x400) (hlow : low.toNat = 0xDC00 + lower) (hlower : lower < 0x400) :
    pairWord high low = .ok (UInt32.ofNat (0x10000 + upper * 0x400 + lower)) := by
  have hsize : UInt32.size = 4294967296 := rfl
  have htoNat {n : Nat} (h : n < UInt32.size) : (UInt32.ofNat n).toNat = n := UInt32.toNat_ofNat_of_lt' h
  have hfirst : word (high.toNat - 0xD800) = .ok (UInt32.ofNat upper) := word_eq _ (by omega) (by omega)
  have hshifted : word ((UInt32.ofNat upper).toNat * 2 ^ 10) = .ok (UInt32.ofNat (upper * 0x400)) :=
    word_eq _ (by rw [htoNat (by omega)]; omega) (by omega)
  have hsum : word (0x10000 + (UInt32.ofNat (upper * 0x400)).toNat) =
      .ok (UInt32.ofNat (0x10000 + upper * 0x400)) :=
    word_eq _ (by rw [htoNat (by omega)]; omega) (by omega)
  have hsecond : word (low.toNat - 0xDC00) = .ok (UInt32.ofNat lower) := word_eq _ (by omega) (by omega)
  have hall : word ((UInt32.ofNat (0x10000 + upper * 0x400)).toNat + (UInt32.ofNat lower).toNat) =
      .ok (UInt32.ofNat (0x10000 + upper * 0x400 + lower)) :=
    word_eq _ (by rw [htoNat (by omega), htoNat (by omega)]; omega) (by omega)
  rw [pairWord, hfirst, ok_bind, hshifted, ok_bind, hsum, ok_bind, hsecond, ok_bind, hall]

theorem find?_append {p : List Char} {c : Char} (h : c ∉ p) (rest : List Char) :
    find? c (p ++ c :: rest) = some (Text.byteLength p) := by
  rw [find?, if_pos (by simp), takeWhile_ne_append h]

theorem cut_append (p m q : List Char) :
    cut (p ++ m ++ q) (Text.byteLength p) (Text.byteLength (p ++ m)) = .ok m := by
  rw [cut, Text.slice?_append]

/-- Behind an opening brace the text is cut at the first closing one. -/
theorem takeUnicode_brace (s : List Char) :
    takeUnicode ('\x7b' :: s) =
      .ok ((bracedEscape s).1, ('\x7b' :: s).drop (bracedEscape s).2) := by
  unfold takeUnicode
  rw [if_pos List.head?_cons]
  by_cases hclose : '\x7d' ∈ s
  · obtain ⟨digits, rest, rfl, hnot⟩ := List.eq_append_cons_of_mem hclose
    have hfind : find? '\x7d' ('\x7b' :: (digits ++ '\x7d' :: rest)) =
        some (Text.byteLength (['\x7b'] ++ digits)) :=
      find?_append (p := ['\x7b'] ++ digits) (by simp [hnot]) rest
    have hcut : cut ('\x7b' :: (digits ++ '\x7d' :: rest)) 1 (Text.byteLength (['\x7b'] ++ digits)) =
        .ok digits := cut_append ['\x7b'] digits ('\x7d' :: rest)
    rw [hfind, bracedEscape_closed hnot]
    dsimp only
    rw [hcut, ok_bind]
    cases hnumber : hexNumber? digits with
    | none =>
      rw [word?, hnumber]
      rfl
    | some n =>
      -- The digits take one byte each, so the brace stands as many characters as bytes behind the first.
      have hbytes : Text.byteLength (['\x7b'] ++ digits) + 1 = digits.length + 2 := by
        have hbrace : Text.byteLength ['\x7b'] = 1 := by decide
        rw [Text.byteLength_append, Text.byteLength_eq_length (utf8Size_of_hexNumber? hnumber), hbrace]
        omega
      rw [word?, hnumber, Option.map_some]
      dsimp only
      rw [UInt32.toNat_ofNat_of_lt' (hexNumber?_cases hnumber).1, hbytes]
  · have hfind : find? '\x7d' ('\x7b' :: s) = none := if_neg (by simp [hclose])
    rw [hfind, bracedEscape_unclosed hclose]
    rfl

theorem lowWord?_eq (s : List Char) : lowWord? s = (lowSurrogate? s).map UInt32.ofNat := by
  unfold lowWord?
  split
  · next t =>
    rw [bind_word?_takeBytes?, lowSurrogate?]
    cases hdigits : hexPrefix? 4 t with
    | none => rfl
    | some n =>
      rw [Option.map_some, Option.filter_some, Option.filter_some,
        UInt32.toNat_ofNat_of_lt' (lt_of_hexPrefix? hdigits)]
      split_ifs <;> rfl
  · next hne => rw [lowSurrogate?_of_ne hne, Option.map_none]

/-- Behind `\u` the same is read by bytes and by characters, and no cut or number fails. -/
theorem takeUnicode_eq (s : List Char) :
    takeUnicode s = .ok ((unicodeEscape s).1, s.drop (unicodeEscape s).2) := by
  by_cases hbrace : s.head? = some '\x7b'
  · obtain ⟨t, rfl⟩ := List.head?_eq_some_iff.1 hbrace
    rw [takeUnicode_brace, unicodeEscape_brace]
  · rw [takeUnicode, if_neg hbrace, unicodeEscape_of_ne hbrace, takeDigits, bind_word?_takeBytes?]
    cases hdigits : hexPrefix? 4 s with
    | none => rfl
    | some high =>
      have htoNat := UInt32.toNat_ofNat_of_lt' (lt_of_hexPrefix? hdigits)
      dsimp only [Option.map_some]
      rw [htoNat, lowWord?_eq]
      split_ifs with hhigh
      · cases hlow : lowSurrogate? (s.drop 4) with
        | none => rfl
        | some low =>
          obtain ⟨hrange, -⟩ := lowSurrogate?_cases hlow
          have hsize : UInt32.size = 4294967296 := rfl
          have hpair : pairWord (UInt32.ofNat high) (UInt32.ofNat low) =
              .ok (UInt32.ofNat (0x10000 + (high - 0xD800) * 0x400 + (low - 0xDC00))) := by
            refine pairWord_eq ?_ ?_ ?_ ?_
            · rw [htoNat]
              omega
            · omega
            · rw [UInt32.toNat_ofNat_of_lt' (by omega)]
              omega
            · omega
          rw [Option.map_some]
          dsimp only
          rw [hpair, ok_bind, UInt32.toNat_ofNat_of_lt' (by omega), List.drop_drop]
      · rfl

theorem not_numeral_of_hexPrefix? {n : Nat} {s : List Char} (h : hexPrefix? n s = none) :
    ∀ w rest, s = w ++ rest → w.length = n → ∀ v, ¬Numeral v w := by
  intro w rest hsplit hlen v hv
  rw [hexPrefix?_eq_some_iff.2 ⟨w, rest, hsplit, hlen, hexNumber?_eq_some_iff.2 hv⟩] at h
  contradiction

theorem digitsRead (n : Nat) (s : List Char) :
    ∃ v taken rest, s = taken ++ rest ∧ takeDigits n s = (v, rest) ∧
      hexPrefix? n s = v.map UInt32.toNat ∧ DigitsRead n v taken rest := by
  rw [takeDigits, bind_word?_takeBytes?]
  cases hdigits : hexPrefix? n s with
  | none =>
    exact ⟨none, [], s, rfl, rfl, rfl, .nothing (not_numeral_of_hexPrefix? hdigits)⟩
  | some v =>
    have htoNat := UInt32.toNat_ofNat_of_lt' (lt_of_hexPrefix? hdigits)
    obtain ⟨w, rest, rfl, hlen, hnumber⟩ := hexPrefix?_eq_some_iff.1 hdigits
    refine ⟨some (UInt32.ofNat v), w, rest, rfl, ?_, ?_, ?_⟩
    · rw [Option.map_some, List.drop_left' hlen]
    · rw [Option.map_some, htoNat]
    · exact .number hlen (utf8Size_of_hexNumber? hnumber) (by rw [htoNat, ← hexNumber?_eq_some_iff, hnumber])

theorem LowSurrogateAhead.ne_none {s : List Char} (h : LowSurrogateAhead s) : lowSurrogate? s ≠ none := by
  obtain ⟨low, w, rest, rfl, hlen, hnumber, hrange⟩ := h
  have hdigits : hexPrefix? 4 (w ++ rest) = some low :=
    hexPrefix?_eq_some_iff.2 ⟨w, rest, rfl, hlen, hexNumber?_eq_some_iff.2 hnumber⟩
  simp [lowSurrogate?, hdigits, hrange]

theorem bracedRead (s : List Char) :
    ∃ c taken rest, '\x7b' :: s = taken ++ rest ∧ bracedEscape s = (c, taken.length) ∧
      UnicodeRead c taken rest := by
  by_cases hclose : '\x7d' ∈ s
  · obtain ⟨digits, rest, rfl, hnot⟩ := List.eq_append_cons_of_mem hclose
    rw [bracedEscape_closed hnot]
    cases hnumber : hexNumber? digits with
    | none =>
      refine ⟨none, [], _, rfl, rfl, .brokenBraces ?_⟩
      intro other behind hsplit hother
      have hsame := congrArg (List.takeWhile (· ≠ '\x7d')) hsplit
      rw [takeWhile_ne_append hnot, takeWhile_ne_append hother] at hsame
      rw [← hsame, ← hexNumber?_eq_none_iff, hnumber]
    | some n =>
      have hnumeral := hexNumber?_eq_some_iff.1 hnumber
      exact ⟨_, '\x7b' :: (digits ++ ['\x7d']), rest, by simp, by simp, .braced hnot hnumeral⟩
  · refine ⟨none, [], _, rfl, bracedEscape_unclosed hclose, .brokenBraces ?_⟩
    rintro digits rest rfl -
    simp at hclose

theorem lt_of_hexNumber?_four {w : List Char} {n : Nat} (hlen : w.length = 4) (h : hexNumber? w = some n) :
    n < 0x10000 := by
  rcases number_cases h with hhex | ⟨digits, rfl, hhex⟩
  · have hlt := hhex.lt_pow
    rwa [hlen] at hlt
  · have hlt := hhex.lt_pow
    rw [Nat.succ.inj hlen] at hlt
    omega

theorem unicodeRead (s : List Char) :
    ∃ c taken rest, s = taken ++ rest ∧ unicodeEscape s = (c, taken.length) ∧
      UnicodeRead c taken rest := by
  by_cases hbrace : s.head? = some '\x7b'
  · obtain ⟨t, rfl⟩ := List.head?_eq_some_iff.1 hbrace
    rw [unicodeEscape_brace]
    exact bracedRead t
  · rw [unicodeEscape_of_ne hbrace]
    cases hdigits : hexPrefix? 4 s with
    | none =>
      exact ⟨none, [], s, rfl, rfl, .badDigits hbrace (not_numeral_of_hexPrefix? hdigits)⟩
    | some high =>
      obtain ⟨w, rest, rfl, hw, hnumber⟩ := hexPrefix?_eq_some_iff.1 hdigits
      have hlt := lt_of_hexNumber?_four hw hnumber
      have hnumeral := hexNumber?_eq_some_iff.1 hnumber
      dsimp only
      rw [List.drop_left' hw]
      split_ifs with hhigh
      · cases hlow : lowSurrogate? rest with
        | none =>
          refine ⟨none, w, rest, rfl, by rw [hw], .unpaired hw hnumeral ⟨hhigh.1, by omega⟩ ?_⟩
          exact fun _ hahead => hahead.ne_none hlow
        | some low =>
          obtain ⟨hrange, v, behind, rfl, hv, hsecond⟩ := lowSurrogate?_cases hlow
          have hhighUnit : (UInt16.ofNat high).toNat = high := UInt16.toNat_ofNat_of_lt' hlt
          have hlowUnit : (UInt16.ofNat low).toNat = low :=
            UInt16.toNat_ofNat_of_lt' (hrange.2.trans (by decide))
          obtain ⟨c, hnumbered, hplane, hunits⟩ :=
            Text.exists_utf16Units (u := UInt16.ofNat high) (v := UInt16.ofNat low) (by omega) (by omega)
          rw [hhighUnit, hlowUnit] at hnumbered
          refine ⟨some c, w ++ '\\' :: 'u' :: v, behind, by simp, ?_, ?_⟩
          · dsimp only
            rw [← hnumbered, Text.scalar?_toNat]
            simp [hw, hv]
          · refine .pair hw (by rwa [hhighUnit]) hv ?_ hunits hplane
            rwa [hlowUnit, ← hexNumber?_eq_some_iff]
      · by_cases hsurrogate : 0xD800 ≤ high ∧ high < 0xE000
        · rw [scalar?_of_surrogate hsurrogate]
          exact ⟨none, w, rest, rfl, by rw [hw], .unpaired hw hnumeral hsurrogate (by omega)⟩
        · have hvalid : high.isValidChar := by
            unfold Nat.isValidChar
            omega
          have hchar := Text.toNat_ofNat_of_valid hvalid
          refine ⟨some (Char.ofNat high), w, rest, rfl, ?_, .basic hw ?_ ?_⟩
          · rw [Text.scalar?, if_pos hvalid, hw]
          · rwa [hchar]
          · rwa [hchar]

end Unicode

section Turns

/-- A turn at a backslash gives and takes what the escape does. -/
theorem turn_escape (d : Char) (t : List Char) :
    turn '\\' (d :: t) = .ok ((escape d t).1, t.drop (escape d t).2) := by
  simp only [turn, escape]
  rw [if_neg (by decide)]
  cases letterEscape? d with
  | some e => rfl
  | none =>
    dsimp only
    split_ifs with hx hu hcr hlf hline
    · rw [takeDigits, bind_word?_takeBytes?, byteEscape]
      cases hdigits : hexPrefix? 2 t with
      | none => rfl
      | some n =>
        have htoNat := UInt32.toNat_ofNat_of_lt' (lt_of_hexPrefix? hdigits)
        simp [htoNat]
    · rw [takeUnicode_eq, ok_bind]
    · rw [List.drop_one]
    · rfl
    · rfl
    · rfl

/-- No turn fails, and each takes at least one character. -/
theorem turn_takes (c : Char) (s : List Char) :
    ∃ taken given rest, turn c s = .ok (given, rest) ∧ c :: s = taken ++ rest ∧ taken ≠ [] ∧
      unescape (c :: s) = given ++ unescape rest := by
  by_cases hc : c = '\\'
  · subst hc
    cases s with
    | nil => exact ⟨['\\'], [], [], rfl, rfl, List.cons_ne_nil _ _, by simp [unescape]⟩
    | cons d t =>
      obtain ⟨w, rest, rfl, hlen, -⟩ := escape_takes d t
      refine ⟨'\\' :: d :: w, (escape d (w ++ rest)).1, rest, ?_, rfl, List.cons_ne_nil _ _, ?_⟩
      · rw [turn_escape, hlen, List.drop_left]
      · rw [unescape_escape, hlen, List.drop_left]
  · exact ⟨[c], [c], s, if_pos hc, rfl, List.cons_ne_nil _ _, unescape_plain hc s⟩

/-- The turns of a reading take the whole text, and what they give is the text unescaped. -/
theorem exists_turns (s : List Char) :
    ∃ turns, Turns s turns ∧ turns.flatMap Turn.taken = s ∧ turns.flatMap Turn.given = unescape s := by
  -- Every turn leaves less of the text than it finds.
  induction hlen : s.length using Nat.strong_induction_on generalizing s with
  | h n ih =>
    cases s with
    | nil => exact ⟨[], .done, rfl, by rw [unescape]; rfl⟩
    | cons c s =>
      obtain ⟨taken, given, rest, hturn, hsplit, hne, hread⟩ := turn_takes c s
      have hless : rest.length < n := by
        have hpos := List.length_pos_of_ne_nil hne
        have hsum := congrArg List.length hsplit
        rw [List.length_append, hlen] at hsum
        omega
      obtain ⟨later, hlater, htaken, hgiven⟩ := ih _ hless rest rfl
      refine ⟨⟨taken, given⟩ :: later, .next hturn hsplit hlater, ?_, ?_⟩
      · rw [List.flatMap_cons, htaken, hsplit]
      · rw [List.flatMap_cons, hgiven, hread]

end Turns

/-- What stands between the first and the last byte of a literal. -/
def inside (raw : List Char) : List Char := Text.slice raw 1 (Text.byteLength raw - 1)

/-- Read by bytes, the escapes of a literal take exactly what they read, whatever stands behind them: some number
of digits, all up to a closing brace, four digits or the digits of two code units. No cut and no number fails
in that. Each turn takes at least one character, and all turns together take what stands between the quotes. -/
theorem escapes_take_what_they_read :
    (∀ n s, ∃ v taken rest, s = taken ++ rest ∧ takeDigits n s = (v, rest) ∧
      hexPrefix? n s = v.map UInt32.toNat ∧ DigitsRead n v taken rest) ∧
    (∀ s, ∃ c taken rest, s = taken ++ rest ∧ takeUnicode s = .ok (c, rest) ∧
      unicodeEscape s = (c, taken.length) ∧ UnicodeRead c taken rest) ∧
    (∀ c s, ∃ taken given rest, turn c s = .ok (given, rest) ∧ c :: s = taken ++ rest ∧ taken ≠ []) ∧
    ∀ raw, ∃ turns, Turns (inside raw) turns ∧ turns.flatMap Turn.taken = inside raw ∧
      turns.flatMap Turn.given = value raw := by
  refine ⟨digitsRead, ?_, ?_, ?_⟩
  · intro s
    obtain ⟨c, taken, rest, rfl, hescape, hread⟩ := unicodeRead s
    refine ⟨c, taken, rest, rfl, ?_, hescape, hread⟩
    rw [takeUnicode_eq, hescape, List.drop_left]
  · intro c s
    obtain ⟨taken, given, rest, hturn, hsplit, hne, -⟩ := turn_takes c s
    exact ⟨taken, given, rest, hturn, hsplit, hne⟩
  · intro raw
    exact exists_turns (inside raw)

/-- A literal with a number in braces, a pair of surrogates, a high surrogate alone and an escape that breaks off
in front of a character of two bytes. -/
def brokenOff : List Char :=
  "\x22\\u\x7b1F600\x7d\\uD83D\\uDE00\\uD83D\\x4é\x22".toList

theorem brokenOff_taken :
    (∃ turns, Turns (inside brokenOff) turns ∧ turns.flatMap Turn.taken = inside brokenOff ∧
      turns.flatMap Turn.given = ['😀', '😀', '\uFFFD', '\uFFFD', '4', 'é']) ∧
    inside brokenOff = "\\u\x7b1F600\x7d\\uD83D\\uDE00\\uD83D\\x4é".toList := by
  obtain ⟨-, -, -, hruns⟩ := escapes_take_what_they_read
  have hvalue : value brokenOff = ['😀', '😀', '\uFFFD', '\uFFFD', '4', 'é'] := by decide +kernel
  refine ⟨?_, by decide +kernel⟩
  rw [← hvalue]
  exact hruns brokenOff

end Bytewise

end StringLiteral

end ScriptTree
