import ScriptTree.Json.Parser
import ScriptTree.Proofs.Json.Grammar

/-! Reading a JSON text gives the value that the grammar gives it. So a text has at most one value. -/
namespace ScriptTree.Json

open StringLiteral (Hex)

theorem takeWhile_append_stop {α : Type} {p : α → Bool} {s rest : List α} (hs : ∀ a ∈ s, p a)
    (hrest : ∀ a ∈ rest.head?, p a = false) :
    (s ++ rest).takeWhile p = s ∧ (s ++ rest).dropWhile p = rest := by
  rw [List.takeWhile_append_of_pos hs, List.dropWhile_append_of_pos hs]
  cases rest with
  | nil => simp
  | cons a rest =>
    have ha : p a = false := hrest a rfl
    simp [ha]

theorem unit?_of_hex {n : Nat} {a b c d : Char} (h : Hex n [a, b, c, d]) :
    unit? a b c d = some n := by
  rw [unit?, Text.number?, if_pos ⟨by simp, by simpa using h.all⟩, h.ofDigits]

theorem letterEscape?_of_mem {c l : Char} (h : (l, c) ∈ letterEscapes) :
    letterEscape? l = some c ∧ l ≠ 'u' := by
  have hall : ∀ p ∈ letterEscapes, letterEscape? p.1 = some p.2 ∧ p.1 ≠ 'u' := by decide
  exact hall _ h

theorem scanString_plain {c : Char} (hcontrol : 0x20 ≤ c.toNat) (hquote : c ≠ '"')
    (hbackslash : c ≠ '\\') (rest : List Char) :
    scanString (c :: rest) = (scanString rest).map fun p => (c :: p.1, p.2) := by
  have hno : ¬(c.toNat < 0x20 ∨ c = '\\') := by
    simp only [hbackslash, or_false]
    omega
  rw [scanString.eq_def]
  split <;> simp_all

theorem scanString_letter {c l : Char} (h : (l, c) ∈ letterEscapes) (rest : List Char) :
    scanString ('\\' :: l :: rest) = (scanString rest).map fun p => (c :: p.1, p.2) := by
  obtain ⟨hletter, hu⟩ := letterEscape?_of_mem h
  rw [scanString, hletter]
  simp [hu]

theorem scanString_unit {c : Char} {s : List Char} (h : Hex c.toNat s) (hs : s.length = 4)
    (rest : List Char) :
    scanString ('\\' :: 'u' :: (s ++ rest)) = (scanString rest).map fun p => (c :: p.1, p.2) := by
  match s, hs with
  | [x, y, z, w], _ =>
    have hscalar := (Text.toNat_scalar c).2
    have hhigh : ¬(0xD800 ≤ c.toNat ∧ c.toNat < 0xDC00) := by omega
    have hlow : ¬(0xDC00 ≤ c.toNat ∧ c.toNat < 0xE000) := by omega
    simp [scanString, unit?_of_hex h, hhigh, hlow]

theorem scanString_pair {c : Char} {u v : UInt16} {s t : List Char}
    (hc : Text.utf16Units c = [u, v]) (hu : Hex u.toNat s) (hs : s.length = 4)
    (hv : Hex v.toNat t) (ht : t.length = 4) (rest : List Char) :
    scanString ('\\' :: 'u' :: (s ++ '\\' :: 'u' :: (t ++ rest))) =
      (scanString rest).map fun p => (c :: p.1, p.2) := by
  obtain ⟨hhigh, hlow, hsum⟩ := Text.surrogates_of_utf16Units hc
  match s, hs, t, ht with
  | [x, y, z, w], _, [x', y', z', w'], _ =>
    simp [scanString, unit?_of_hex hu, unit?_of_hex hv, hhigh, hlow, hsum]

theorem scanString_spelling {c : Char} {w : List Char} (h : Spelling c w) (rest : List Char) :
    scanString (w ++ rest) = (scanString rest).map fun p => (c :: p.1, p.2) := by
  cases h with
  | plain hcontrol hquote hbackslash => exact scanString_plain hcontrol hquote hbackslash rest
  | letter h => exact scanString_letter h rest
  | unit h hs => exact scanString_unit h hs rest
  | pair hc hu hs hv ht =>
    simpa using scanString_pair hc hu hs hv ht rest

theorem scanString_contents {s raw : List Char} (h : Contents s raw) (rest : List Char) :
    scanString (raw ++ '"' :: rest) = some (s, rest) := by
  induction h with
  | nil => simp [scanString]
  | cons h hraw ih => rw [List.append_assoc, scanString_spelling h, ih, Option.map_some]

theorem isDigitOf_of_isDigit {c : Char} (h : c.isDigit) : Text.isDigitOf 10 c := by
  rw [Char.isDigit, Bool.and_eq_true, decide_eq_true_iff, decide_eq_true_iff] at h
  have hlow : '0' ≤ c := h.1
  have hhigh : c ≤ '9' := h.2
  have hnat : c.toNat ≤ 57 := h.2
  rw [Text.isDigitOf, Text.digitValue?, if_pos ⟨hlow, hhigh⟩]
  have hzero : '0'.toNat = 48 := rfl
  simp only [hzero, decide_eq_true_iff]
  omega

theorem Digits.number? {s : List Char} (h : Digits s) :
    Text.number? 10 s = some (Text.ofDigits 10 s) := by
  have hall : s.all (Text.isDigitOf 10) := by
    rw [List.all_eq_true]
    exact fun c hc => isDigitOf_of_isDigit (h.2 c hc)
  rw [Text.number?, if_pos ⟨h.1, hall⟩]

theorem Digits.ne_cons {s : List Char} (h : Digits s) {c : Char} (hc : c.isDigit = false)
    (rest : List Char) : s ≠ c :: rest := by
  rintro rfl
  rw [h.2 c List.mem_cons_self] at hc
  contradiction

theorem Exponent.exponent? {e : Int} {s : List Char} (h : Exponent e s) : exponent? s = some e := by
  cases h with
  | absent => rfl
  | @unsigned e s he hs =>
    rw [Json.exponent?, if_pos he, hs.number?]
    · rfl
    · exact hs.ne_cons (by decide)
    · exact hs.ne_cons (by decide)
  | plus he hs =>
    rw [Json.exponent?, if_pos he, hs.number?]
    rfl
  | minus he hs =>
    rw [Json.exponent?, if_pos he, hs.number?]
    rfl

theorem Exponent.head? {e : Int} {s : List Char} (h : Exponent e s) :
    ∀ c ∈ s.head?, c.isDigit = false ∧ c ≠ '.' := by
  have hletter {e : Char} (he : e = 'e' ∨ e = 'E') : e.isDigit = false ∧ e ≠ '.' := by
    rcases he with rfl | rfl <;> decide
  cases h with
  | absent => simp
  | unsigned he hs => simpa using hletter he
  | plus he hs => simpa using hletter he
  | minus he hs => simpa using hletter he

theorem Exponent.eq_zero {e : Int} (h : Exponent e []) : e = 0 := by
  cases h
  rfl

theorem number?_number {negative : Bool} {whole fraction f exponent : List Char} {e : Int}
    (hwhole : Whole whole) (hfraction : Fraction fraction f) (hexponent : Exponent e exponent) :
    number? negative whole (f ++ exponent) =
      some (numberScalar negative whole fraction exponent e) := by
  have hright : ¬(whole = [] ∨ (whole.length ≠ 1 ∧ whole.head? = some '0')) := by
    rintro (hnil | ⟨hlength, hzero⟩)
    · exact hwhole.1.1 hnil
    · rw [hwhole.2 hzero] at hlength
      contradiction
  cases hfraction with
  | absent =>
    rw [List.nil_append]
    cases exponent with
    | nil =>
      obtain rfl := hexponent.eq_zero
      rw [number?, if_neg hright]
      by_cases hzero : negative ∧ whole = ['0']
      · obtain ⟨hneg, rfl⟩ := hzero
        rw [if_pos ⟨hneg, rfl⟩, numberScalar, if_neg (by simp [hneg])]
        simp [signed, Text.ofDigits, Text.digitValue?]
      · rw [if_neg hzero, numberScalar, if_pos ⟨rfl, rfl, hzero⟩, signed]
    | cons c s =>
      have hdot := (hexponent.head? c rfl).2
      rw [number?, if_neg hright, hexponent.exponent?, numberScalar, if_neg (by simp)]
      · simp [signed]
      · simp
      · simp [hdot]
  | digits hs =>
    obtain ⟨htake, hdrop⟩ := takeWhile_append_stop hs.2 fun c hc => (hexponent.head? c hc).1
    have hscalar : numberScalar negative whole fraction exponent e =
        .decimal (signed negative (Text.ofDigits 10 (whole ++ fraction))) (e - fraction.length) :=
      if_neg fun h => hs.1 h.1
    rw [List.cons_append, number?, if_neg hright, htake, hdrop, hscalar]
    dsimp only
    rw [if_neg hs.1, hexponent.exponent?]
    rfl

theorem isNumeric_of_isDigit {c : Char} (h : c.isDigit) : isNumeric c := by
  simp [isNumeric, h]

/-- Whether a text cannot go on a number that stands before it. -/
def Ends (rest : List Char) : Prop := ∀ c ∈ rest.head?, isNumeric c = false

/-- A number begins with a digit or a minus, and no character of it ends it. -/
theorem numeric_number (negative : Bool) {whole fraction f exponent : List Char} {e : Int}
    (hwhole : Whole whole) (hfraction : Fraction fraction f) (hexponent : Exponent e exponent) :
    ∀ c ∈ sign negative ++ whole ++ f ++ exponent, isNumeric c := by
  have hsign : ∀ c ∈ sign negative, isNumeric c := by
    cases negative <;> simp [sign, isNumeric]
  have hf : ∀ c ∈ f, isNumeric c := by
    cases hfraction with
    | absent => simp
    | digits hs =>
      rw [List.forall_mem_cons]
      exact ⟨by decide, fun c hc => isNumeric_of_isDigit (hs.2 c hc)⟩
  have hletter {e : Char} (he : e = 'e' ∨ e = 'E') : isNumeric e := by
    rcases he with rfl | rfl <;> decide
  have hexp : ∀ c ∈ exponent, isNumeric c := by
    cases hexponent with
    | absent => simp
    | unsigned he hs =>
      rw [List.forall_mem_cons]
      exact ⟨hletter he, fun c hc => isNumeric_of_isDigit (hs.2 c hc)⟩
    | plus he hs =>
      rw [List.forall_mem_cons, List.forall_mem_cons]
      exact ⟨hletter he, by decide, fun c hc => isNumeric_of_isDigit (hs.2 c hc)⟩
    | minus he hs =>
      rw [List.forall_mem_cons, List.forall_mem_cons]
      exact ⟨hletter he, by decide, fun c hc => isNumeric_of_isDigit (hs.2 c hc)⟩
  simp only [List.forall_mem_append]
  exact ⟨⟨⟨hsign, fun c hc => isNumeric_of_isDigit (hwhole.1.2 c hc)⟩, hf⟩, hexp⟩

theorem numeral?_number {negative : Bool} {whole fraction f exponent : List Char} {e : Int}
    (hwhole : Whole whole) (hfraction : Fraction fraction f) (hexponent : Exponent e exponent) :
    numeral? (sign negative ++ whole ++ f ++ exponent) =
      some (numberScalar negative whole fraction exponent e) := by
  have hstop : ∀ c ∈ (f ++ exponent).head?, c.isDigit = false := by
    cases hfraction with
    | absent => exact fun c hc => (hexponent.head? c hc).1
    | digits hs => simp
  obtain ⟨htake, hdrop⟩ := takeWhile_append_stop hwhole.1.2 hstop
  rw [List.append_assoc, List.append_assoc]
  cases negative with
  | true =>
    rw [sign, if_pos rfl, List.singleton_append, numeral?, htake, hdrop]
    exact number?_number hwhole hfraction hexponent
  | false =>
    rw [sign, if_neg (by decide), List.nil_append, numeral?, htake, hdrop]
    · exact number?_number hwhole hfraction hexponent
    · intro s hs
      obtain ⟨c, w, rfl⟩ := List.exists_cons_of_ne_nil hwhole.1.1
      have hc := hwhole.1.2 c List.mem_cons_self
      obtain ⟨rfl, -⟩ := List.cons.inj hs
      contradiction

theorem head_number (negative : Bool) {whole : List Char} (rest : List Char) (h : Whole whole) :
    ∃ c s, sign negative ++ whole ++ rest = c :: s ∧ (c.isDigit ∨ c = '-') := by
  cases negative with
  | true => exact ⟨'-', whole ++ rest, rfl, Or.inr rfl⟩
  | false =>
    obtain ⟨c, w, rfl⟩ := List.exists_cons_of_ne_nil h.1.1
    exact ⟨c, w ++ rest, rfl, Or.inl (h.1.2 c List.mem_cons_self)⟩

theorem scanToken_numeric {c : Char} (hc : c.isDigit ∨ c = '-') (s : List Char) :
    scanToken (c :: s) =
      (numeral? ((c :: s).takeWhile isNumeric)).map fun n =>
        (.scalar n, (c :: s).dropWhile isNumeric) := by
  have hnumeric : isNumeric c := by
    rcases hc with hc | rfl
    · exact isNumeric_of_isDigit hc
    · decide
  rw [scanToken.eq_def]
  split
  case h_11 => rw [if_neg (by simp [hnumeric])]
  all_goals
    -- No other token begins with a digit or a minus.
    next heq =>
    obtain ⟨rfl, -⟩ := List.cons.inj heq
    simp at hc

theorem scanToken_scalar {s : Scalar} {t rest : List Char} (h : ScalarText s t) (hrest : Ends rest) :
    scanToken (t ++ rest) = some (.scalar s, rest) := by
  cases h with
  | null => rfl
  | true => rfl
  | false => rfl
  | string h => simp [scanToken, scanString_contents h]
  | @number negative whole fraction f exponent e hwhole hfraction hexponent =>
    obtain ⟨htake, hdrop⟩ :=
      takeWhile_append_stop (numeric_number negative hwhole hfraction hexponent) hrest
    obtain ⟨c, s, hs, hc⟩ := head_number negative (f ++ exponent ++ rest) hwhole
    have hsplit : sign negative ++ whole ++ f ++ exponent ++ rest = c :: s := by
      rw [← hs]
      simp
    rw [hsplit] at htake hdrop ⊢
    rw [scanToken_numeric hc, htake, hdrop, numeral?_number hwhole hfraction hexponent, Option.map_some]

theorem isSpace_iff {c : Char} : isSpace c ↔ c ∈ [' ', '\t', '\n', '\r'] := by
  simp [isSpace, or_assoc]

/-- A scalar begins with no blank. -/
theorem head?_scalar {s : Scalar} {t : List Char} (h : ScalarText s t) :
    ∃ c u, t = c :: u ∧ isSpace c = false := by
  cases h with
  | @number negative whole fraction f exponent e hwhole hfraction hexponent =>
    obtain ⟨c, s, hs, hc⟩ := head_number negative (f ++ exponent) hwhole
    refine ⟨c, s, by rw [← hs]; simp, ?_⟩
    by_contra hspace
    rw [Bool.not_eq_false, isSpace_iff] at hspace
    rcases hc with hc | rfl
    · simp only [List.mem_cons, List.not_mem_nil, or_false] at hspace
      rcases hspace with rfl | rfl | rfl | rfl <;> contradiction
    · simp at hspace
  | string h => exact ⟨_, _, rfl, rfl⟩
  | _ => exact ⟨_, _, rfl, rfl⟩

theorem tokens_eq (s : List Char) :
    tokens s = match s.dropWhile isSpace with
      | [] => some []
      | c :: s' => (scanToken (c :: s')).bind fun p => (tokens p.2).map (p.1 :: ·) := by
  rw [tokens]
  split
  · next hs => rw [hs]
  · next c s' hs =>
    simp only [hs]
    split
    · next h => rw [h, Option.bind_none]
    · next h => rw [h, Option.bind_some]

/-- The state of the reader after a text. -/
def read (st : State) (s : List Char) : Option State := (tokens s).bind fun ts => ts.foldlM step st

theorem read_nil (st : State) : read st [] = some st := by
  rw [read, tokens_eq]
  rfl

theorem read_blank {b : List Char} (hb : Blank b) (st : State) (s : List Char) :
    read st (b ++ s) = read st s := by
  have hdrop : (b ++ s).dropWhile isSpace = s.dropWhile isSpace :=
    List.dropWhile_append_of_pos fun c hc => isSpace_iff.2 (hb c hc)
  rw [read, read, tokens_eq, hdrop, ← tokens_eq]

theorem read_token {c : Char} {s rest : List Char} {t : Token} (hc : isSpace c = false)
    (h : scanToken (c :: s) = some (t, rest)) (st : State) :
    read st (c :: s) = (step st t).bind fun st' => read st' rest := by
  have htokens : tokens (c :: s) = (tokens rest).map (t :: ·) := by
    rw [tokens_eq, List.dropWhile_cons_of_neg (by simp [hc])]
    dsimp only
    rw [h, Option.bind_some]
  unfold read
  rw [htokens]
  cases tokens rest with
  | none => cases step st t <;> rfl
  | some ts => rw [Option.map_some, Option.bind_some, List.foldlM_cons]; rfl

/-- Whether a value has to come next, above the given stack. -/
inductive Awaits : State → List Frame → Prop
  | value {stack : List Frame} : Awaits (.value stack) stack
  | first {stack : List Frame} : Awaits (.firstItem stack) (.array [] :: stack)

/-- Whether a member has to come next, behind the given ones. -/
inductive AwaitsMember : State → List (String × Json) → List Frame → Prop
  | first {stack : List Frame} : AwaitsMember (.firstKey stack) [] stack
  | next {members : List (String × Json)} {stack : List Frame} :
      AwaitsMember (.key members stack) members stack

theorem Awaits.step {st : State} {stack : List Frame} (h : Awaits st stack) {t : Token}
    (ht : t ≠ .closeArray) : step st t = beginValue stack t := by
  cases h with
  | value => rfl
  | first => cases t <;> first | rfl | contradiction

theorem AwaitsMember.step {st : State} {members : List (String × Json)} {stack : List Frame}
    (h : AwaitsMember st members stack) (key : String) :
    step st (.scalar (.str key)) = some (.colon members key stack) := by
  cases h <;> rfl

/-- How the reader goes over a text of the grammar. -/
def Phrase.Reads : Phrase → List Char → Prop
  | .value v, t | .element v, t =>
    ∀ st stack rest, Awaits st stack → Ends rest →
      read st (t ++ rest) = read (.done v stack) rest
  | .elements vs, t =>
    ∀ st items stack rest, Awaits st (.array items :: stack) →
      read st (t ++ ']' :: rest) = read (.done (.arr (items.reverse ++ vs)) stack) rest
  | .member key v, t =>
    ∀ st members stack rest, AwaitsMember st members stack → Ends rest →
      read st (t ++ rest) = read (.done v (.object members key :: stack)) rest
  | .members ms, t =>
    ∀ st members stack rest, AwaitsMember st members stack →
      read st (t ++ '\x7d' :: rest) = read (.done (.obj (members.reverse ++ ms)) stack) rest

theorem read_scalar {s : Scalar} {t rest : List Char} (h : ScalarText s t) (hrest : Ends rest)
    (st : State) : read st (t ++ rest) = (step st (.scalar s)).bind fun st' => read st' rest := by
  have hscan := scanToken_scalar h hrest
  obtain ⟨c, u, rfl, hc⟩ := head?_scalar h
  exact read_token hc hscan st

theorem Ends.blank_append {b rest : List Char} (hb : Blank b) (hrest : Ends rest) :
    Ends (b ++ rest) := by
  cases b with
  | nil => exact hrest
  | cons c b =>
    rintro x ⟨⟩
    have hc := hb c List.mem_cons_self
    simp only [List.mem_cons, List.not_mem_nil, or_false] at hc
    rcases hc with rfl | rfl | rfl | rfl <;> rfl

theorem Ends.cons {c : Char} (hc : isNumeric c = false) (rest : List Char) : Ends (c :: rest) := by
  rintro x ⟨⟩
  exact hc

section Brackets

variable {st : State} {stack : List Frame} (s : List Char)

theorem Awaits.read_openArray (h : Awaits st stack) :
    read st ('[' :: s) = read (.firstItem stack) s := by
  rw [read_token (t := .openArray) rfl rfl, h.step (by simp)]
  rfl

theorem Awaits.read_openObject (h : Awaits st stack) :
    read st ('\x7b' :: s) = read (.firstKey stack) s := by
  rw [read_token (t := .openObject) rfl rfl, h.step (by simp)]
  rfl

theorem read_closeArray (v : Json) (items : List Json) (stack : List Frame) :
    read (.done v (.array items :: stack)) (']' :: s) =
      read (.done (.arr (items.reverse ++ [v])) stack) s := by
  rw [read_token (t := .closeArray) rfl rfl, ← List.reverse_cons]
  rfl

theorem read_closeObject (v : Json) (members : List (String × Json)) (key : String)
    (stack : List Frame) :
    read (.done v (.object members key :: stack)) ('\x7d' :: s) =
      read (.done (.obj (members.reverse ++ [(key, v)])) stack) s := by
  rw [read_token (t := .closeObject) rfl rfl, ← List.reverse_cons]
  rfl

end Brackets

theorem reads_of_phraseText {p : Phrase} {t : List Char} (h : PhraseText p t) : p.Reads t := by
  induction h with
  | scalar h =>
    intro st stack rest hst hrest
    rw [read_scalar h hrest, hst.step (by simp)]
    rfl
  | emptyArray hb =>
    intro st stack rest hst hrest
    rw [List.append_assoc, List.cons_append, hst.read_openArray, read_blank hb, List.singleton_append,
      read_token (t := .closeArray) rfl rfl]
    rfl
  | array h ih =>
    intro st stack rest hst hrest
    rw [List.append_assoc, List.cons_append, hst.read_openArray]
    exact ih _ [] stack rest .first
  | emptyObject hb =>
    intro st stack rest hst hrest
    rw [List.append_assoc, List.cons_append, hst.read_openObject, read_blank hb, List.singleton_append,
      read_token (t := .closeObject) rfl rfl]
    rfl
  | object h ih =>
    intro st stack rest hst hrest
    rw [List.append_assoc, List.cons_append, hst.read_openObject]
    exact ih _ [] stack rest .first
  | element ha h hb ih =>
    intro st stack rest hst hrest
    rw [List.append_assoc, List.append_assoc, read_blank ha,
      ih st stack _ hst (hrest.blank_append hb), read_blank hb]
  | lastElement h ih =>
    intro st items stack rest hst
    rw [ih st _ _ hst (.cons rfl rest), read_closeArray]
  | @elements v vs t u h hu ih ihu =>
    intro st items stack rest hst
    calc read st (t ++ ',' :: u ++ ']' :: rest)
        = read st (t ++ ',' :: (u ++ ']' :: rest)) := by rw [List.append_assoc, List.cons_append]
      _ = read (.value (.array (v :: items) :: stack)) (u ++ ']' :: rest) := by
        rw [ih st _ _ hst (.cons rfl _), read_token (t := .comma) rfl rfl]
        rfl
      _ = read (.done (.arr (items.reverse ++ v :: vs)) stack) rest := by
        rw [ihu _ (v :: items) stack rest .value, List.reverse_cons, List.append_assoc,
          List.singleton_append]
  | @member key v a k b t ha hk hb h ih =>
    intro st members stack rest hst hrest
    calc read st (a ++ k ++ b ++ ':' :: t ++ rest)
        = read st (a ++ (k ++ (b ++ ':' :: (t ++ rest)))) := by
          simp only [List.append_assoc, List.cons_append]
      _ = read (.colon members key stack) (b ++ ':' :: (t ++ rest)) := by
        rw [read_blank ha, read_scalar hk ((Ends.cons rfl _).blank_append hb), hst.step]
        rfl
      _ = read (.value (.object members key :: stack)) (t ++ rest) := by
        rw [read_blank hb, read_token (t := .colon) rfl rfl]
        rfl
      _ = read (.done v (.object members key :: stack)) rest := ih _ _ rest .value hrest
  | lastMember h ih =>
    intro st members stack rest hst
    rw [ih st _ _ _ hst (.cons rfl rest), read_closeObject]
  | @members key v ms t u h hu ih ihu =>
    intro st members stack rest hst
    calc read st (t ++ ',' :: u ++ '\x7d' :: rest)
        = read st (t ++ ',' :: (u ++ '\x7d' :: rest)) := by rw [List.append_assoc, List.cons_append]
      _ = read (.key ((key, v) :: members) stack) (u ++ '\x7d' :: rest) := by
        rw [ih st _ _ _ hst (.cons rfl _), read_token (t := .comma) rfl rfl]
        rfl
      _ = read (.done (.obj (members.reverse ++ (key, v) :: ms)) stack) rest := by
        rw [ihu _ ((key, v) :: members) stack rest .next, List.reverse_cons, List.append_assoc,
          List.singleton_append]

/-- A text of the grammar is read as its value. -/
theorem parse?_of_phraseText {v : Json} {t : List Char} (h : PhraseText (.element v) t) :
    parse? t = some v := by
  have hread := reads_of_phraseText h (.value []) [] [] .value (by simp [Ends])
  rw [List.append_nil, read_nil, read, Option.bind_eq_some_iff] at hread
  obtain ⟨ts, hts, hrun⟩ := hread
  rw [parse?, hts, Option.bind_some, ofTokens?, hrun]

end ScriptTree.Json
