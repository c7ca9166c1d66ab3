import ScriptTree.Json.Printer
import ScriptTree.Proofs.Json.Grammar

/-! What is written for a value is a text of the grammar for this value, in either style, and the compact one
has no line break. -/
namespace ScriptTree.Json

open StringLiteral (Hex hexDigits)

theorem hex_hexPair {n : Nat} (h : n < 0x100) : Hex n ('0' :: '0' :: hexPair n) := by
  have hdigit : ∀ d < 16, (Nat.digitChar d, d) ∈ hexDigits := by decide
  have hzero : ('0', 0) ∈ hexDigits := by decide
  have hfirst := hdigit (n / 16) (by omega)
  have hsecond := hdigit (n % 16) (by omega)
  have hdigits := (((Hex.nil.digit hzero).digit hzero).digit hfirst).digit hsecond
  have hvalue : (((0 * 16 + 0) * 16 + 0) * 16 + n / 16) * 16 + n % 16 = n := by omega
  rw [hvalue] at hdigits
  exact hdigits

theorem spelling_escapeChar (c : Char) : Spelling c (escapeChar c) := by
  unfold escapeChar
  split_ifs with hquote hbackslash hb ht hn hf hr hcontrol
  · exact .letter (by simp [letterEscapes, hquote])
  · exact .letter (by simp [letterEscapes, hbackslash])
  · exact .letter (by simp [letterEscapes, hb])
  · exact .letter (by simp [letterEscapes, ht])
  · exact .letter (by simp [letterEscapes, hn])
  · exact .letter (by simp [letterEscapes, hf])
  · exact .letter (by simp [letterEscapes, hr])
  · exact .unit (hex_hexPair (by omega)) rfl
  · exact .plain (by omega) hquote hbackslash

theorem contents_escape (s : List Char) : Contents s (s.flatMap escapeChar) := by
  induction s with
  | nil => exact .nil
  | cons c s ih => exact .cons (spelling_escapeChar c) ih

theorem scalarText_quote (s : String) : ScalarText (.str s) (quote s.toList) := by
  have h := ScalarText.string (contents_escape s.toList)
  rwa [String.ofList_toList] at h

theorem digitValue?_digitChar {d : Nat} (h : d < 10) : Text.digitValue? d.digitChar = some d := by
  have hall : ∀ d < 10, Text.digitValue? d.digitChar = some d := by decide
  exact hall d h

theorem ofDigits_toDigits (n : Nat) : Text.ofDigits 10 (Nat.toDigits 10 n) = n := by
  induction n using Nat.base_induction 10 (by decide) with
  | single m hm =>
    simp [Nat.toDigits_of_lt_base hm, Text.ofDigits, digitValue?_digitChar hm]
  | digit m k hk hm ih =>
    rw [← Nat.toDigits_append_toDigits (by decide) hm hk, Nat.toDigits_of_lt_base hk]
    rw [Text.ofDigits] at ih ⊢
    rw [List.foldl_append, ih, List.foldl_cons, List.foldl_nil, digitValue?_digitChar hk]
    rw [Option.getD_some, Nat.mul_comm]

theorem digits_toDigits (n : Nat) : Digits (Nat.toDigits 10 n) :=
  ⟨Nat.toDigits_ne_nil, fun _ hc => Nat.isDigit_of_mem_toDigits (by decide) (by decide) hc⟩

theorem head?_toDigits {n : Nat} (h : (Nat.toDigits 10 n).head? = some '0') : n = 0 := by
  induction n using Nat.base_induction 10 (by decide) with
  | single m hm =>
    have hall : ∀ m < 10, m.digitChar = '0' → m = 0 := by decide
    rw [Nat.toDigits_of_lt_base hm, List.head?_cons, Option.some.injEq] at h
    exact hall m hm h
  | digit m k hk hm ih =>
    rw [← Nat.toDigits_append_toDigits (by decide) hm hk,
      List.head?_append_of_ne_nil _ Nat.toDigits_ne_nil] at h
    exact absurd (ih h) (by omega)

theorem whole_toDigits (n : Nat) : Whole (Nat.toDigits 10 n) := by
  refine ⟨digits_toDigits n, fun h => ?_⟩
  rw [head?_toDigits h, Nat.toDigits_zero]

/-- The digits of an integer are its sign and the digits of its absolute value. -/
theorem exists_digits (n : Int) :
    ∃ negative m, digits n = sign negative ++ Nat.toDigits 10 m ∧ signed negative m = n ∧
      ¬(negative ∧ m = 0) := by
  cases n with
  | ofNat n => exact ⟨false, n, rfl, rfl, by simp⟩
  | negSucc n => exact ⟨true, n + 1, rfl, rfl, by simp⟩

theorem exponent_digits (e : Int) : Exponent e ('e' :: digits e) := by
  cases e with
  | ofNat n =>
    have h := Exponent.unsigned (Or.inl rfl : 'e' = 'e' ∨ 'e' = 'E') (digits_toDigits n)
    rw [ofDigits_toDigits] at h
    exact h
  | negSucc n =>
    have h := Exponent.minus (Or.inl rfl : 'e' = 'e' ∨ 'e' = 'E') (digits_toDigits (n + 1))
    rw [ofDigits_toDigits] at h
    exact h

theorem scalarText_text (s : Scalar) : ScalarText s s.text := by
  cases s with
  | null => exact .null
  | bool b =>
    cases b with
    | true => exact .true
    | false => exact .false
  | int n =>
    obtain ⟨negative, m, hdigits, hsigned, hzero⟩ := exists_digits n
    have h := ScalarText.number negative (whole_toDigits m) .absent .absent
    have hnumber : numberScalar negative (Nat.toDigits 10 m) [] [] 0 = .int n := by
      rw [numberScalar, if_pos, ofDigits_toDigits, hsigned]
      refine ⟨rfl, rfl, fun hminus => hzero ⟨hminus.1, head?_toDigits ?_⟩⟩
      rw [hminus.2, List.head?_cons]
    rwa [hnumber, List.append_nil, List.append_nil, ← hdigits] at h
  | decimal m e =>
    obtain ⟨negative, k, hdigits, hsigned, -⟩ := exists_digits m
    have h := ScalarText.number negative (whole_toDigits k) .absent (exponent_digits e)
    have hnumber :
        numberScalar negative (Nat.toDigits 10 k) [] ('e' :: digits e) e = .decimal m e := by
      rw [numberScalar, if_neg (by simp), List.append_nil, ofDigits_toDigits, hsigned]
      simp
    rwa [hnumber, List.append_nil, ← hdigits] at h
  | str s => exact scalarText_quote s

theorem blank_line (style : Style) (level : Nat) : Blank (style.line level) := by
  cases style with
  | compact => simp [Blank, Style.line]
  | pretty =>
    rw [Style.line, Blank, List.forall_mem_cons]
    refine ⟨by decide, fun c hc => ?_⟩
    rw [List.eq_of_mem_replicate hc]
    decide

theorem blank_gap (style : Style) : Blank style.gap := by
  cases style <;> simp [Blank, Style.gap]

theorem blank_nil : Blank [] := by simp [Blank]

/-- The text of pieces. -/
def written (ps : List Piece) : List Char := ps.flatMap Piece.text

@[simp] theorem written_cons (p : Piece) (ps : List Piece) :
    written (p :: ps) = p.text ++ written ps := List.flatMap_cons

mutual

/-- The pieces of a value are a text of it, whatever is behind them. -/
theorem written_pieces (style : Style) (level : Nat) : (v : Json) → (more : List Piece) →
    ∃ t, PhraseText (.value v) t ∧ written (pieces style level v more) = t ++ written more
  | .scalar s, more => ⟨s.text, .scalar (scalarText_text s), rfl⟩
  | .arr [], more => ⟨_, .emptyArray blank_nil, rfl⟩
  | .arr (item :: items), more => by
    obtain ⟨t, ht, hitem⟩ :=
      written_pieces style (level + 1) item (itemPieces style level items more)
    obtain ⟨u, hu, hitems⟩ := written_itemPieces style level items more ht
    refine ⟨_, .array hu, ?_⟩
    simp [pieces, Piece.text, Token.text, hitem, ← hitems]
  | .obj [], more => ⟨_, .emptyObject blank_nil, rfl⟩
  | .obj ((key, value) :: members), more => by
    obtain ⟨t, ht, hvalue⟩ :=
      written_pieces style (level + 1) value (memberPieces style level members more)
    obtain ⟨u, hu, hmembers⟩ := written_memberPieces style level members more key ht
    refine ⟨_, .object hu, ?_⟩
    simp [pieces, Piece.text, Token.text, Scalar.text, hvalue, ← hmembers]

/-- Behind an element the pieces of the further ones and of the closing bracket stand. -/
theorem written_itemPieces (style : Style) (level : Nat) : (items : List Json) →
    (more : List Piece) → {v : Json} → {t : List Char} → PhraseText (.value v) t →
    ∃ u, PhraseText (.elements (v :: items)) u ∧
      style.line (level + 1) ++ t ++ written (itemPieces style level items more) =
        u ++ ']' :: written more
  | [], more, v, t, ht => by
    refine ⟨_, .lastElement (.element (blank_line style (level + 1)) ht (blank_line style level)), ?_⟩
    simp [itemPieces, Piece.text, Token.text]
  | item :: items, more, v, t, ht => by
    obtain ⟨t', ht', hitem⟩ :=
      written_pieces style (level + 1) item (itemPieces style level items more)
    obtain ⟨u, hu, hitems⟩ := written_itemPieces style level items more ht'
    refine ⟨_, .elements (.element (blank_line style (level + 1)) ht blank_nil) hu, ?_⟩
    simp [itemPieces, Piece.text, Token.text, hitem, ← hitems]

/-- Behind a member the pieces of the further ones and of the closing brace stand. -/
theorem written_memberPieces (style : Style) (level : Nat) : (members : List (String × Json)) →
    (more : List Piece) → (key : String) → {v : Json} → {t : List Char} → PhraseText (.value v) t →
    ∃ u, PhraseText (.members ((key, v) :: members)) u ∧
      style.line (level + 1) ++ quote key.toList ++ ':' :: style.gap ++ t ++
        written (memberPieces style level members more) = u ++ '\x7d' :: written more
  | [], more, key, v, t, ht => by
    refine ⟨_, .lastMember (.member (blank_line style (level + 1)) (scalarText_quote key) blank_nil
      (.element (blank_gap style) ht (blank_line style level))), ?_⟩
    simp [memberPieces, Piece.text, Token.text]
  | (key', value) :: members, more, key, v, t, ht => by
    obtain ⟨t', ht', hvalue⟩ :=
      written_pieces style (level + 1) value (memberPieces style level members more)
    obtain ⟨u, hu, hmembers⟩ := written_memberPieces style level members more key' ht'
    refine ⟨_, .members (.member (blank_line style (level + 1)) (scalarText_quote key) blank_nil
      (.element (blank_gap style) ht blank_nil)) hu, ?_⟩
    simp [memberPieces, Piece.text, Token.text, Scalar.text, hvalue, ← hmembers]

end

/-- What is written for a value is a text of it. -/
theorem phraseText_render (style : Style) (v : Json) : PhraseText (.value v) (render style v) := by
  obtain ⟨t, ht, hwritten⟩ := written_pieces style 0 v []
  rw [written, written, List.flatMap_nil, List.append_nil, ← render] at hwritten
  rwa [hwritten]

theorem newline_not_mem_escapeChar (c : Char) : '\n' ∉ escapeChar c := by
  unfold escapeChar
  split_ifs with _ _ _ _ hn _ _ hcontrol
  iterate 7
    · simp
  · intro h
    have hhex := hex_hexPair (n := c.toNat) (by omega)
    rcases List.mem_append.1 h with h | h
    · simp at h
    · exact hhex.ne_of_mem (by simp [h]) '\n' (by decide) rfl
  · simpa using Ne.symm hn

theorem newline_not_mem_digits (n : Int) : '\n' ∉ digits n := by
  obtain ⟨negative, m, hdigits, -, -⟩ := exists_digits n
  rw [hdigits, List.mem_append]
  rintro (h | h)
  · cases negative <;> simp [sign] at h
  · exact absurd ((digits_toDigits m).2 _ h) (by decide)

theorem newline_not_mem_scalar (s : Scalar) : '\n' ∉ s.text := by
  cases s with
  | null => decide
  | bool b => cases b <;> decide
  | int n => exact newline_not_mem_digits n
  | decimal m e => simp [Scalar.text, newline_not_mem_digits]
  | str s => simp [Scalar.text, quote, newline_not_mem_escapeChar]

mutual

theorem newline_not_mem_pieces (level : Nat) : (v : Json) → (more : List Piece) →
    '\n' ∉ written more → '\n' ∉ written (pieces .compact level v more)
  | .scalar s, more, h => by simp [pieces, Piece.text, Token.text, newline_not_mem_scalar, h]
  | .arr [], more, h => by simp [pieces, Piece.text, Token.text, h]
  | .arr (item :: items), more, h => by
    simp [pieces, Piece.text, Token.text, Style.line,
      newline_not_mem_pieces _ item _ (newline_not_mem_itemPieces level items more h)]
  | .obj [], more, h => by simp [pieces, Piece.text, Token.text, h]
  | .obj ((key, value) :: members), more, h => by
    simp [pieces, Piece.text, Token.text, Style.line, Style.gap, newline_not_mem_scalar,
      newline_not_mem_pieces _ value _ (newline_not_mem_memberPieces level members more h)]

theorem newline_not_mem_itemPieces (level : Nat) : (items : List Json) → (more : List Piece) →
    '\n' ∉ written more → '\n' ∉ written (itemPieces .compact level items more)
  | [], more, h => by simp [itemPieces, Piece.text, Token.text, Style.line, h]
  | item :: items, more, h => by
    simp [itemPieces, Piece.text, Token.text, Style.line,
      newline_not_mem_pieces _ item _ (newline_not_mem_itemPieces level items more h)]

theorem newline_not_mem_memberPieces (level : Nat) : (members : List (String × Json)) →
    (more : List Piece) → '\n' ∉ written more →
    '\n' ∉ written (memberPieces .compact level members more)
  | [], more, h => by simp [memberPieces, Piece.text, Token.text, Style.line, h]
  | (key, value) :: members, more, h => by
    simp [memberPieces, Piece.text, Token.text, Style.line, Style.gap, newline_not_mem_scalar,
      newline_not_mem_pieces _ value _ (newline_not_mem_memberPieces level members more h)]

end

/-- The compact style writes a value in one line. -/
theorem newline_not_mem_render (v : Json) : '\n' ∉ render .compact v :=
  newline_not_mem_pieces 0 v [] (by simp [written])

end ScriptTree.Json
