import Mathlib.Tactic.SplitIfs
import ScriptTree.Proofs.Text.Boundary
import ScriptTree.Syntax.StringLiteral

/-! The ways to spell a text as a string literal. However each character of it is written and wherever lines
are continued, the value of the literal is the text. -/
namespace ScriptTree

namespace Text

theorem scalar?_toNat (c : Char) : scalar? c.toNat = some c := by
  have h : c.toNat.isValidChar := c.valid
  rw [scalar?, if_pos h, Char.ofNat_toNat]

end Text

namespace StringLiteral

/-- The digits of base sixteen with their values. Letters may stand in either case. -/
def hexDigits : List (Char × Nat) :=
  ['0', '1', '2', '3', '4', '5', '6', '7', '8', '9', 'a', 'b', 'c', 'd', 'e', 'f'].zipIdx ++
    ['A', 'B', 'C', 'D', 'E', 'F'].zipIdx 10

/-- Whether digits spell a number. Zeros may stand in front. -/
inductive Hex : Nat → List Char → Prop
  | nil : Hex 0 []
  | digit {n d : Nat} {s : List Char} {c : Char} (h : Hex n s) (hd : (c, d) ∈ hexDigits) :
      Hex (n * 16 + d) (s ++ [c])

theorem digit_of_mem_hexDigits {c : Char} {d : Nat} (h : (c, d) ∈ hexDigits) :
    Text.digitValue? c = some d ∧ d < 16 := by
  have hall : ∀ p ∈ hexDigits, Text.digitValue? p.1 = some p.2 ∧ p.2 < 16 := by decide
  exact hall _ h

theorem Hex.all {n : Nat} {s : List Char} (h : Hex n s) : ∀ c ∈ s, Text.isDigitOf 16 c := by
  induction h with
  | nil => simp
  | @digit n d s c h hd ih =>
    obtain ⟨hvalue, hlt⟩ := digit_of_mem_hexDigits hd
    intro x hx
    rcases List.mem_append.1 hx with hx | hx
    · exact ih x hx
    · obtain rfl := List.mem_singleton.1 hx
      simpa [Text.isDigitOf, hvalue] using hlt

theorem Hex.ofDigits {n : Nat} {s : List Char} (h : Hex n s) : Text.ofDigits 16 s = n := by
  induction h with
  | nil => rfl
  | digit h hd ih =>
    rw [Text.ofDigits] at ih ⊢
    simp [ih, (digit_of_mem_hexDigits hd).1]

theorem Hex.lt_pow {n : Nat} {s : List Char} (h : Hex n s) : n < 16 ^ s.length := by
  induction h with
  | nil => simp
  | digit h hd ih =>
    have hlt := (digit_of_mem_hexDigits hd).2
    rw [List.length_append, List.length_singleton, Nat.pow_succ]
    omega

theorem mem_hexDigits_of_isDigitOf {c : Char} (h : Text.isDigitOf 16 c) :
    (c, (Text.digitValue? c).getD 0) ∈ hexDigits := by
  have hall : ∀ n < 128, Text.isDigitOf 16 (Char.ofNat n) →
      (Char.ofNat n, (Text.digitValue? (Char.ofNat n)).getD 0) ∈ hexDigits := by decide
  have hlt : c.toNat < 128 := by
    by_contra hge
    have hval : c.val.toNat = c.toNat := rfl
    have hnone : Text.digitValue? c = none := by
      unfold Text.digitValue?
      simp only [Char.le_def, UInt32.le_iff_toNat_le, hval, Char.reduceVal, UInt32.reduceToNat]
      rw [if_neg (by omega), if_neg (by omega), if_neg (by omega)]
    rw [Text.isDigitOf, hnone] at h
    contradiction
  have hc := hall c.toNat hlt
  rw [Char.ofNat_toNat] at hc
  exact hc h

/-- Digits spell the one number that is their value. -/
theorem hex_iff {n : Nat} {s : List Char} :
    Hex n s ↔ s.all (Text.isDigitOf 16) ∧ Text.ofDigits 16 s = n := by
  rw [List.all_eq_true]
  refine ⟨fun h => ⟨h.all, h.ofDigits⟩, ?_⟩
  rintro ⟨hall, rfl⟩
  induction s using List.reverseRecOn with
  | nil => exact .nil
  | append_singleton s c ih =>
    have hdigit := mem_hexDigits_of_isDigitOf (hall c (by simp))
    have hvalue : Text.ofDigits 16 (s ++ [c]) =
        Text.ofDigits 16 s * 16 + (Text.digitValue? c).getD 0 := by
      simp [Text.ofDigits]
    rw [hvalue]
    exact (ih fun d hd => hall d (by simp [hd])).digit hdigit

instance (n : Nat) (s : List Char) : Decidable (Hex n s) := decidable_of_iff _ hex_iff.symm

theorem Hex.ne_of_mem {n : Nat} {s : List Char} (h : Hex n s) {c : Char} (hc : c ∈ s) (x : Char)
    (hx : Text.isDigitOf 16 x = false) : c ≠ x := by
  rintro rfl
  rw [h.all c hc] at hx
  contradiction

theorem Hex.hexNumber? {n : Nat} {s : List Char} (h : Hex n s) (hs : s ≠ []) :
    hexNumber? s = if n < UInt32.size then some n else none := by
  have hnumber : Text.number? 16 s = some n := by
    rw [Text.number?, if_pos ⟨hs, by simpa using h.all⟩, h.ofDigits]
  unfold StringLiteral.hexNumber?
  split
  · next t => exact absurd rfl (h.ne_of_mem (List.mem_cons_self) '+' (by decide))
  · simp [hnumber, Option.filter_some]

theorem Hex.hexPrefix? {n : Nat} {s : List Char} (h : Hex n s) (rest : List Char)
    (hs : s.length = 2 ∨ s.length = 4) : hexPrefix? s.length (s ++ rest) = some n := by
  have hn : n < UInt32.size := by
    have hlt := h.lt_pow
    rcases hs with hs | hs <;> rw [hs] at hlt <;> exact hlt.trans (by decide)
  have hne : s ≠ [] := by
    rintro rfl
    simp at hs
  rw [StringLiteral.hexPrefix?, if_pos (by simp), List.take_left, h.hexNumber? hne, if_pos hn]

/-- The letters after a backslash that stand for another character. -/
def letterEscapes : List (Char × Char) :=
  [('n', '\n'), ('t', '\t'), ('r', '\r'), ('b', '\x08'), ('f', '\x0c'), ('v', '\x0b'), ('0', '\x00')]

/-- The characters that do not stand for themselves after a backslash. The digits are further ones. -/
def reserved : List Char :=
  ['n', 't', 'r', 'b', 'f', 'v', 'x', 'u', '\r', '\n', '\u2028', '\u2029']

/-- The ways to write a character between the given quotes. -/
inductive Spelling (quote : Char) : Char → List Char → Prop
  | plain {c : Char} (hquote : c ≠ quote) (h : c ∉ ['\\', '\r', '\n']) : Spelling quote c [c]
  | letter {c l : Char} (h : (l, c) ∈ letterEscapes) : Spelling quote c ['\\', l]
  | self {c : Char} (h : c ∉ reserved) (hdigit : c.isDigit = false) : Spelling quote c ['\\', c]
  | byte {c : Char} {s : List Char} (h : Hex c.toNat s) (hs : s.length = 2) :
      Spelling quote c ('\\' :: 'x' :: s)
  | unit {c : Char} {s : List Char} (h : Hex c.toNat s) (hs : s.length = 4) :
      Spelling quote c ('\\' :: 'u' :: s)
  | pair {c : Char} {u v : UInt16} {s t : List Char} (hc : Text.utf16Units c = [u, v])
      (hu : Hex u.toNat s) (hs : s.length = 4) (hv : Hex v.toNat t) (ht : t.length = 4) :
      Spelling quote c ('\\' :: 'u' :: (s ++ '\\' :: 'u' :: t))
  | braced {c : Char} {s : List Char} (h : Hex c.toNat s) (hs : s ≠ []) :
      Spelling quote c ('\\' :: 'u' :: '\x7b' :: (s ++ ['\x7d']))

/-- A backslash before the end of a line: the literal goes on in the next one. -/
def continuations : List (List Char) :=
  [['\\', '\n'], ['\\', '\r'], ['\\', '\r', '\n'], ['\\', '\u2028'], ['\\', '\u2029']]

/-- What may stand between the quotes for a text: a spelling of each of its characters, with line
continuations anywhere between them. -/
inductive Contents (quote : Char) : List Char → List Char → Prop
  | nil : Contents quote [] []
  | char {c : Char} {w s raw : List Char} (h : Spelling quote c w) (hraw : Contents quote s raw) :
      Contents quote (c :: s) (w ++ raw)
  | continuation {w s raw : List Char} (h : w ∈ continuations) (hraw : Contents quote s raw) :
      Contents quote s (w ++ raw)

/-- Whether a literal spells a text. -/
inductive Spells : List Char → List Char → Prop
  | quoted {quote : Char} {s raw : List Char} (hquote : quote.utf8Size = 1)
      (h : Contents quote s raw) : Spells s (quote :: raw ++ [quote])

theorem unescape_plain {c : Char} (h : c ≠ '\\') (s : List Char) :
    unescape (c :: s) = c :: unescape s := by
  rw [unescape.eq_def]
  simp [h]

theorem unescape_escape (c : Char) (s : List Char) :
    unescape ('\\' :: c :: s) = (escape c s).1 ++ unescape (s.drop (escape c s).2) := by
  rw [unescape.eq_def]
  simp

theorem unescape_of_escape {c x : Char} {w rest : List Char}
    (h : escape c (w ++ rest) = ([x], w.length)) :
    unescape ('\\' :: c :: (w ++ rest)) = x :: unescape rest := by
  rw [unescape_escape, h, List.drop_left, List.singleton_append]

theorem letterEscape?_of_mem {c l : Char} (h : (l, c) ∈ letterEscapes) :
    letterEscape? l = some c := by
  have hall : ∀ p ∈ letterEscapes, letterEscape? p.1 = some p.2 := by decide
  exact hall _ h

theorem letterEscape?_eq_none {c : Char} (h : c ∉ reserved) (hdigit : c.isDigit = false) :
    letterEscape? c = none := by
  unfold letterEscape?
  split <;> simp_all [reserved]

theorem escape_self {c : Char} (h : c ∉ reserved) (hdigit : c.isDigit = false) (s : List Char) :
    escape c s = ([c], 0) := by
  rw [escape, letterEscape?_eq_none h hdigit]
  simp_all [reserved]

theorem Hex.escape_byte {n : Nat} {s : List Char} (h : Hex n s) (hs : s.length = 2)
    (rest : List Char) :
    escape 'x' (s ++ rest) = ([(Text.scalar? n).getD Text.replacement], s.length) := by
  have hdigits := h.hexPrefix? rest (Or.inl hs)
  rw [hs] at hdigits
  have hbyte : byteEscape (s ++ rest) = (Text.scalar? n, 2) := by
    rw [byteEscape, hdigits]
  simp [escape, letterEscape?, hbyte, hs]

theorem Hex.unicodeEscape {n : Nat} {s : List Char} (h : Hex n s) (hs : s.length = 4)
    (rest : List Char) :
    unicodeEscape (s ++ rest) =
      if 0xD800 ≤ n ∧ n < 0xDC00 then
        match lowSurrogate? rest with
        | some low => (Text.scalar? (0x10000 + (n - 0xD800) * 0x400 + (low - 0xDC00)), 10)
        | none => (none, 4)
      else (Text.scalar? n, 4) := by
  have hdigits := h.hexPrefix? rest (Or.inr hs)
  rw [hs] at hdigits
  unfold StringLiteral.unicodeEscape
  split
  · next t heq =>
    -- The first digit is no opening brace.
    obtain ⟨c, s, rfl⟩ := List.exists_cons_of_length_eq_add_one hs
    obtain ⟨rfl, -⟩ := List.cons.inj heq
    exact absurd rfl (h.ne_of_mem List.mem_cons_self '\x7b' (by decide))
  · cases hlow : lowSurrogate? rest <;> simp [hdigits, List.drop_left' hs, hlow]

theorem escape_unit {c : Char} {s : List Char} (h : Hex c.toNat s) (hs : s.length = 4)
    (rest : List Char) : escape 'u' (s ++ rest) = ([c], s.length) := by
  have hsurrogate : ¬(0xD800 ≤ c.toNat ∧ c.toNat < 0xDC00) := by
    have := (Text.toNat_scalar c).2
    omega
  simp [escape, letterEscape?, h.unicodeEscape hs, hsurrogate, Text.scalar?_toNat, hs]

theorem escape_pair {c : Char} {u v : UInt16} {s t : List Char} (hc : Text.utf16Units c = [u, v])
    (hu : Hex u.toNat s) (hs : s.length = 4) (hv : Hex v.toNat t) (ht : t.length = 4)
    (rest : List Char) :
    escape 'u' ((s ++ '\\' :: 'u' :: t) ++ rest) = ([c], (s ++ '\\' :: 'u' :: t).length) := by
  obtain ⟨hhigh, hlow, hsum⟩ := Text.surrogates_of_utf16Units hc
  have hsecond : lowSurrogate? ('\\' :: 'u' :: (t ++ rest)) = some v.toNat := by
    have hdigits := hv.hexPrefix? rest (Or.inr ht)
    rw [ht] at hdigits
    simp [lowSurrogate?, hdigits, hlow]
  have hescape : unicodeEscape (s ++ '\\' :: 'u' :: (t ++ rest)) = (some c, 10) := by
    rw [hu.unicodeEscape hs, if_pos hhigh, hsecond]
    simp only [hsum, Text.scalar?_toNat]
  simp [escape, letterEscape?, hescape, hs, ht]

theorem takeWhile_ne_append {c : Char} {p : List Char} (h : c ∉ p) (rest : List Char) :
    (p ++ c :: rest).takeWhile (· ≠ c) = p := by
  rw [List.takeWhile_append_of_pos]
  · simp
  · intro d hd
    simpa using ne_of_mem_of_not_mem hd h

/-- A number in braces is read to the closing brace, unless thirty-two bits cannot hold it. -/
theorem Hex.bracedEscape {n : Nat} {s : List Char} (h : Hex n s) (hs : s ≠ []) (rest : List Char) :
    bracedEscape (s ++ '\x7d' :: rest) =
      if n < UInt32.size then (Text.scalar? n, s.length + 2) else (none, 0) := by
  have htake : (s ++ '\x7d' :: rest).takeWhile (· ≠ '\x7d') = s :=
    takeWhile_ne_append (fun hmem => h.ne_of_mem hmem '\x7d' (by decide) rfl) rest
  simp only [StringLiteral.bracedEscape, htake, h.hexNumber? hs]
  split_ifs <;> simp_all

theorem Hex.escape_braced {n : Nat} {s : List Char} (h : Hex n s) (hs : s ≠ [])
    (rest : List Char) :
    escape 'u' (('\x7b' :: (s ++ ['\x7d'])) ++ rest) =
      if n < UInt32.size then
        ([(Text.scalar? n).getD Text.replacement], ('\x7b' :: (s ++ ['\x7d'])).length)
      else ([Text.replacement], 0) := by
  have hescape : escape 'u' (('\x7b' :: (s ++ ['\x7d'])) ++ rest) =
      ([(StringLiteral.bracedEscape (s ++ '\x7d' :: rest)).1.getD Text.replacement],
        (StringLiteral.bracedEscape (s ++ '\x7d' :: rest)).2) := by
    simp [escape, letterEscape?, StringLiteral.unicodeEscape]
  rw [hescape, h.bracedEscape hs]
  split_ifs <;> simp

theorem unescape_spelling {quote c : Char} {w : List Char} (h : Spelling quote c w)
    (rest : List Char) : unescape (w ++ rest) = c :: unescape rest := by
  cases h with
  | plain hquote h =>
    exact unescape_plain (by simp_all) rest
  | letter h =>
    exact unescape_of_escape (w := []) (by simp [escape, letterEscape?_of_mem h])
  | self h hdigit => exact unescape_of_escape (w := []) (escape_self h hdigit _)
  | byte h hs =>
    have hescape := h.escape_byte hs rest
    rw [Text.scalar?_toNat] at hescape
    exact unescape_of_escape hescape
  | unit h hs => exact unescape_of_escape (escape_unit h hs rest)
  | pair hc hu hs hv ht => exact unescape_of_escape (escape_pair hc hu hs hv ht rest)
  | braced h hs =>
    have hn : c.toNat < UInt32.size := (Text.toNat_scalar c).1.trans (by decide)
    have hescape := h.escape_braced hs rest
    rw [if_pos hn, Text.scalar?_toNat] at hescape
    exact unescape_of_escape hescape

theorem unescape_continuation {w : List Char} (h : w ∈ continuations) {rest : List Char}
    (hrest : rest.head? ≠ some '\n') : unescape (w ++ rest) = unescape rest := by
  -- A line feed right behind a carriage return would belong to the continuation.
  simp only [continuations, List.mem_cons, List.not_mem_nil, or_false] at h
  rcases h with rfl | rfl | rfl | rfl | rfl <;>
    simp [unescape_escape, escape, letterEscape?, hrest]

theorem head?_contents {quote : Char} {s raw : List Char} (h : Contents quote s raw) :
    raw.head? ≠ some '\n' := by
  cases h with
  | nil => simp
  | char h hraw =>
    cases h with
    | plain hquote h => simp_all
    | _ => simp
  | continuation h hraw =>
    simp only [continuations, List.mem_cons, List.not_mem_nil, or_false] at h
    rcases h with rfl | rfl | rfl | rfl | rfl <;> simp

theorem unescape_contents {quote : Char} {s raw : List Char} (h : Contents quote s raw) :
    unescape raw = s := by
  induction h with
  | nil => rw [unescape]
  | char h hraw ih => rw [unescape_spelling h, ih]
  | continuation h hraw ih => rw [unescape_continuation h (head?_contents hraw), ih]

/-- What stands between two quotes of one byte each is unescaped. -/
theorem value_quoted {quote : Char} (hquote : quote.utf8Size = 1) (s : List Char) :
    value (quote :: s ++ [quote]) = unescape s := by
  have hfirst : Text.byteLength [quote] = 1 := by simp [Text.byteLength, hquote]
  have hlast : Text.byteLength (quote :: s ++ [quote]) - 1 = Text.byteLength ([quote] ++ s) := by
    rw [Text.byteLength_append, hfirst, Nat.add_sub_cancel]
    rfl
  have hslice := Text.slice_append [quote] s [quote]
  rw [hfirst, ← hlast] at hslice
  exact congrArg unescape hslice

/-- The value of a literal is the text that it spells. -/
theorem value_of_spells {s raw : List Char} (h : Spells s raw) : value raw = s := by
  cases h with
  | quoted hquote h => rw [value_quoted hquote, unescape_contents h]

/-- A literal with an escape of a byte, a pair of surrogates, a continued line and its own quote. -/
def mixedEscapes : List Char :=
  ['\x27', '\\', 'x', '4', '1', '\\', 'u', 'D', '8', '3', 'd', '\\', 'u', 'D', 'e', '0', '0', '\\', '\r', '\n',
   '\\', '\x27', '\x27']

theorem mixedEscapes_value :
    Spells ['A', '😀', '\x27'] mixedEscapes ∧ value mixedEscapes = ['A', '😀', '\x27'] := by
  have hbyte : Hex 'A'.toNat ['4', '1'] :=
    (Hex.nil.digit (d := 4) (by decide)).digit (d := 1) (by decide)
  have hhigh : Hex (0xD83D : UInt16).toNat ['D', '8', '3', 'd'] :=
    (((Hex.nil.digit (d := 13) (by decide)).digit (d := 8) (by decide)).digit (d := 3)
      (by decide)).digit (d := 13) (by decide)
  have hlow : Hex (0xDE00 : UInt16).toNat ['D', 'e', '0', '0'] :=
    (((Hex.nil.digit (d := 13) (by decide)).digit (d := 14) (by decide)).digit (d := 0)
      (by decide)).digit (d := 0) (by decide)
  have hquote : ('\x27').utf8Size = 1 := by decide
  have h : Spells ['A', '😀', '\x27'] mixedEscapes :=
    .quoted hquote
      (.char (.byte hbyte rfl)
        (.char (.pair (by decide) hhigh rfl hlow rfl)
          (.continuation (w := ['\\', '\r', '\n']) (by decide)
            (.char (.self (by decide) (by decide)) .nil))))
  exact ⟨h, value_of_spells h⟩

end StringLiteral

end ScriptTree
