import Mathlib.Algebra.BigOperators.Group.List.Basic
import Mathlib.Data.List.Nodup
import ScriptTree.Dialect.Sniff
import ScriptTree.Proofs.Pattern

/-! What gives the typed dialect away. The verdict on a text is the first trigger, in the order of the list, that
has a text of its language among the parts of the text; so more text on either side never hides one. -/
namespace ScriptTree

open scoped Computability

namespace Pattern

@[simp] theorem language_alt (p q : Pattern) : (alt p q).language = p.language + q.language := rfl

@[simp] theorem language_star (p : Pattern) : (star p).language = p.language∗ := rfl

@[simp] theorem language_plus (p : Pattern) : (plus p).language = p.language * p.language∗ := rfl

@[simp] theorem language_opt (p : Pattern) : (opt p).language = 1 + p.language := rfl

theorem mem_language_oneOf {cs : List Char} {u : List Char} :
    u ∈ (Pattern.char (.oneOf cs)).language ↔ ∃ c ∈ cs, u = [c] := by
  simp only [← matches_iff_mem_language, matches_char_iff, CharClass.mem, List.contains_iff_mem]

@[simp] theorem language_literal (s : List Char) : (literal s).language = {s} := by
  induction s with
  | nil => rfl
  | cons c s ih =>
    ext u
    rw [literal, language, ih, Language.mem_mul]
    simp only [mem_language_oneOf, List.mem_singleton]
    constructor
    · rintro ⟨-, ⟨-, rfl, rfl⟩, v, rfl, rfl⟩
      rfl
    · rintro rfl
      exact ⟨[c], ⟨c, rfl, rfl⟩, s, rfl, rfl⟩

@[simp] theorem language_all (ps : List Pattern) : (all ps).language = (ps.map language).prod := by
  induction ps with
  | nil => rfl
  | cons p ps ih =>
    cases ps with
    | nil => simp [all]
    | cons q ps =>
      have hall : all (p :: q :: ps) = .seq p (all (q :: ps)) := rfl
      rw [hall, language, ih]
      rfl

end Pattern

namespace Trigger

/-- The characters with the Unicode property `White_Space`. -/
def whiteSpace : List Char :=
  ['\t', '\n', '\x0b', '\x0c', '\r', ' ', '\u0085', '\u00a0', '\u1680', '\u2000', '\u2001', '\u2002', '\u2003',
   '\u2004', '\u2005', '\u2006', '\u2007', '\u2008', '\u2009', '\u200a', '\u2028', '\u2029', '\u202f', '\u205f',
   '\u3000']

/-- A white space character. -/
def blank : Language Char := {u | ∃ c ∈ whiteSpace, u = [c]}

/-- An ASCII letter or digit, or the underscore. -/
def wordChar : Language Char :=
  {u | ∃ c : Char, ('a' ≤ c ∧ c ≤ 'z' ∨ 'A' ≤ c ∧ c ≤ 'Z' ∨ '0' ≤ c ∧ c ≤ '9' ∨ c = '_') ∧ u = [c]}

def wordText : Language Char := wordChar * wordChar∗

/-- The texts that give the typed dialect away. -/
def language : Trigger → Language Char
  | .annotatedType => {":".toList} * blank∗ * wordText * (1 + {"[]".toList}) *
      (blank∗ * {"|".toList} * blank∗ * wordText)∗ * blank∗ *
      ({"=".toList} + {";".toList} + {",".toList} + {")".toList})
  | .interface => {"interface".toList} * (blank * blank∗) * wordText
  | .typeAlias => {"type".toList} * (blank * blank∗) * wordText * blank∗ * {"=".toList}
  | .enumeration => {"enum".toList} * (blank * blank∗) * wordText
  | .generic => {"<".toList} * wordText * {">".toList}
  | .typeAssertion => {"as".toList} * (blank * blank∗) * wordText
  | .accessModifier =>
      ({"public".toList} + {"private".toList} + {"protected".toList}) * (blank * blank∗)
  | .readonly => {"readonly".toList} * (blank * blank∗)

theorem mem_blank_iff (c : Char) : CharClass.blank.mem c = true ↔ c ∈ whiteSpace := by
  have hcodes : c ∈ whiteSpace ↔ c.toNat ∈ whiteSpace.map Char.toNat :=
    (List.mem_map_of_injective fun _ _ => Char.toNat_inj.1).symm
  rw [hcodes]
  simp only [CharClass.mem, Text.isBlank, Text.blankRanges, whiteSpace, List.any_cons, List.any_nil,
    Bool.or_false, Bool.or_eq_true, Bool.and_eq_true, decide_eq_true_eq, List.map_cons, List.map_nil,
    List.mem_cons, List.not_mem_nil, or_false, ↓Char.isValue, Char.reduceToNat]
  omega

@[simp] theorem language_blank : (Pattern.char .blank).language = blank := by
  simp only [Pattern.language, mem_blank_iff]
  rfl

theorem mem_word_iff (c : Char) : CharClass.word.mem c = true ↔
    'a' ≤ c ∧ c ≤ 'z' ∨ 'A' ≤ c ∧ c ≤ 'Z' ∨ '0' ≤ c ∧ c ≤ '9' ∨ c = '_' := by
  have hmem : CharClass.word.mem c = (c.isUpper || c.isLower || c.isDigit || c == '_') := rfl
  have hupper : c.isUpper = decide ('A' ≤ c ∧ c ≤ 'Z') := rfl
  have hlower : c.isLower = (decide ('a' ≤ c) && decide (c ≤ 'z')) := rfl
  have hdigit : c.isDigit = (decide ('0' ≤ c) && decide (c ≤ '9')) := rfl
  simp only [hmem, hupper, hlower, hdigit, Bool.or_eq_true, Bool.and_eq_true, decide_eq_true_eq, beq_iff_eq]
  tauto

@[simp] theorem language_word : (Pattern.char .word).language = wordChar := by
  simp only [Pattern.language, mem_word_iff]
  rfl

@[simp] theorem language_ending : (Pattern.char (.oneOf ['=', ';', ',', ')'])).language =
    {"=".toList} + {";".toList} + {",".toList} + {")".toList} := by
  ext u
  simp only [Pattern.mem_language_oneOf, List.mem_cons, List.not_mem_nil, or_false, exists_eq_or_imp,
    exists_eq_left, Language.mem_add, or_assoc]
  rfl

/-- The pattern of a trigger describes the language of the trigger. -/
theorem language_pattern (t : Trigger) : t.pattern.language = t.language := by
  cases t with
  | annotatedType =>
    change (Pattern.all [.literal ":".toList, .star (.char .blank), .plus (.char .word),
      .opt (.literal "[]".toList),
      .star (.all [.star (.char .blank), .literal "|".toList, .star (.char .blank), .plus (.char .word)]),
      .star (.char .blank), .char (.oneOf ['=', ';', ',', ')'])]).language = _
    simp [language, wordText, mul_assoc]
  | interface =>
    change (Pattern.all [.literal "interface".toList, .plus (.char .blank), .plus (.char .word)]).language = _
    simp [language, wordText, mul_assoc]
  | typeAlias =>
    change (Pattern.all [.literal "type".toList, .plus (.char .blank), .plus (.char .word),
      .star (.char .blank), .literal "=".toList]).language = _
    simp [language, wordText, mul_assoc]
  | enumeration =>
    change (Pattern.all [.literal "enum".toList, .plus (.char .blank), .plus (.char .word)]).language = _
    simp [language, wordText, mul_assoc]
  | generic =>
    change (Pattern.all [.literal "<".toList, .plus (.char .word), .literal ">".toList]).language = _
    simp [language, wordText, mul_assoc]
  | typeAssertion =>
    change (Pattern.all [.literal "as".toList, .plus (.char .blank), .plus (.char .word)]).language = _
    simp [language, wordText, mul_assoc]
  | accessModifier =>
    change (Pattern.all [.alt (.literal "public".toList) (.alt (.literal "private".toList)
      (.literal "protected".toList)), .plus (.char .blank)]).language = _
    simp [language, sup_assoc]
  | readonly =>
    change (Pattern.all [.literal "readonly".toList, .plus (.char .blank)]).language = _
    simp [language]

/-- Whether some part of a text gives the typed dialect away by the trigger. -/
def OccursIn (t : Trigger) (source : List Char) : Prop := ∃ u, u <:+: source ∧ u ∈ t.language

theorem occursIn_pattern_iff (t : Trigger) (source : List Char) :
    t.pattern.occursIn source = true ↔ t.OccursIn source := by
  rw [Pattern.occursIn_iff, Pattern.Occurs, language_pattern]
  rfl

/-- A trigger in a part of a text is one in the text. -/
theorem OccursIn.mono {t : Trigger} {part source : List Char} (h : t.OccursIn part)
    (hpart : part <:+: source) : t.OccursIn source := by
  obtain ⟨u, hu, hmem⟩ := h
  exact ⟨u, hu.trans hpart, hmem⟩

/-- The place of a trigger in the list of all. -/
def rank (t : Trigger) : Nat := all.idxOf t

theorem mem_all (t : Trigger) : t ∈ all := by
  cases t <;> decide

theorem nodup_all : all.Nodup := by decide

theorem rank_inj {t t' : Trigger} (h : t.rank = t'.rank) : t = t' :=
  (List.idxOf_inj t.mem_all).1 h

/-- The first trigger of the list with a property is the one that has it and none before it has. -/
theorem find?_all_eq_some_iff {p : Trigger → Bool} {t : Trigger} :
    all.find? p = some t ↔ p t = true ∧ ∀ t' : Trigger, t'.rank < t.rank → p t' = false := by
  rw [List.find?_eq_some_iff_getElem]
  constructor
  · rintro ⟨hp, i, hi, rfl, hbefore⟩
    refine ⟨hp, fun t' ht' => ?_⟩
    have hrank : rank all[i] = i := nodup_all.idxOf_getElem i hi
    have hlt : t'.rank < i := hrank ▸ ht'
    have hget : all[t'.rank] = t' := List.getElem_idxOf (hlt.trans hi)
    simpa [hget] using hbefore t'.rank hlt
  · rintro ⟨hp, hbefore⟩
    have hlt : t.rank < all.length := List.idxOf_lt_length_of_mem t.mem_all
    refine ⟨hp, t.rank, hlt, List.getElem_idxOf hlt, fun j hj => ?_⟩
    have hrank : rank all[j] = j := nodup_all.idxOf_getElem j (hj.trans hlt)
    simpa using hbefore all[j] (hrank.symm ▸ hj)

end Trigger

variable (source : List Char)

theorem trigger_eq_find? :
    (detect source).trigger = Trigger.all.find? fun t => t.pattern.occursIn source := by
  unfold detect
  cases Trigger.all.find? fun t => t.pattern.occursIn source <;> rfl

theorem dialect_eq_typed_iff : (detect source).dialect = .typed ↔ (detect source).trigger.isSome = true := by
  unfold detect
  cases Trigger.all.find? fun t => t.pattern.occursIn source <;> simp

theorem trigger_eq_some_iff {t : Trigger} :
    (detect source).trigger = some t ↔
      t.OccursIn source ∧ ∀ t' : Trigger, t'.rank < t.rank → ¬t'.OccursIn source := by
  rw [trigger_eq_find?, Trigger.find?_all_eq_some_iff]
  simp only [← Bool.not_eq_true, Trigger.occursIn_pattern_iff]

theorem trigger_eq_none_iff : (detect source).trigger = none ↔ ∀ t : Trigger, ¬t.OccursIn source := by
  rw [trigger_eq_find?, List.find?_eq_none]
  simp only [Trigger.occursIn_pattern_iff, Trigger.mem_all, forall_const]

/-- The verdict is exact. The trigger reported is the first of the list with a text of its language among the
parts of the source, there is none if no part of the source is in any of the languages, and the dialect is
typed just if there is one. -/
theorem detect_exact :
    (∀ t, (detect source).trigger = some t ↔
      (∃ u, u <:+: source ∧ u ∈ t.language) ∧
        ∀ t' : Trigger, t'.rank < t.rank → ¬∃ u, u <:+: source ∧ u ∈ t'.language) ∧
    ((detect source).trigger = none ↔ ∀ t : Trigger, ¬∃ u, u <:+: source ∧ u ∈ t.language) ∧
    ((detect source).dialect = .typed ↔ (detect source).trigger.isSome = true) :=
  ⟨fun _ => trigger_eq_some_iff source, trigger_eq_none_iff source, dialect_eq_typed_iff source⟩

variable {source}

/-- A text has the trigger of its part, or one listed before it. -/
theorem trigger_of_part {part : List Char} {t : Trigger} (hpart : part <:+: source)
    (h : (detect part).trigger = some t) :
    ∃ t', (detect source).trigger = some t' ∧ (t' = t ∨ t'.rank < t.rank) := by
  have hoccurs : t.OccursIn source := ((trigger_eq_some_iff part).1 h).1.mono hpart
  cases hsource : (detect source).trigger with
  | none => exact absurd hoccurs ((trigger_eq_none_iff source).1 hsource t)
  | some t' =>
    have hbefore := ((trigger_eq_some_iff source).1 hsource).2 t
    have hle : t'.rank ≤ t.rank := by
      by_contra hlt
      exact hbefore (by omega) hoccurs
    refine ⟨t', rfl, ?_⟩
    rcases hle.eq_or_lt with heq | hlt
    · exact Or.inl (Trigger.rank_inj heq)
    · exact Or.inr hlt

theorem classify_eq_typed_iff : classify source = .typed ↔ ∃ t, (detect source).trigger = some t := by
  rw [classify, dialect_eq_typed_iff, Option.isSome_iff_exists]

theorem classify_of_part {part : List Char} (hpart : part <:+: source) (h : classify part = .typed) :
    classify source = .typed := by
  obtain ⟨t, ht⟩ := classify_eq_typed_iff.1 h
  obtain ⟨t', ht', -⟩ := trigger_of_part hpart ht
  exact classify_eq_typed_iff.2 ⟨t', ht'⟩

/-- Text on either side never hides the typed dialect: the verdict stays, by the same trigger or by one listed
before it; and every part of a text that seems plain seems plain. -/
theorem surroundings_never_hide :
    (∀ before part after : List Char, classify part = .typed →
      classify (before ++ part ++ after) = .typed ∧
      ∃ t t', (detect part).trigger = some t ∧ (detect (before ++ part ++ after)).trigger = some t' ∧
        (t' = t ∨ t'.rank < t.rank)) ∧
    ∀ part source : List Char, part <:+: source → classify source = .plain → classify part = .plain := by
  constructor
  · intro before part after h
    have hpart : part <:+: before ++ part ++ after := ⟨before, after, rfl⟩
    obtain ⟨t, ht⟩ := classify_eq_typed_iff.1 h
    obtain ⟨t', ht', hrank⟩ := trigger_of_part hpart ht
    exact ⟨classify_of_part hpart h, t, t', ht, ht', hrank⟩
  · intro part source hpart h
    cases hclass : classify part with
    | plain => rfl
    | typed =>
      have htyped := classify_of_part hpart hclass
      rw [h] at htyped
      contradiction

/-- An assertion that the text before it runs into, with an annotation behind it. -/
theorem surroundings_never_hide_assertion :
    classify "as any".toList = .typed ∧ (detect "as any".toList).trigger = some .typeAssertion ∧
      (classify ("alias = b".toList ++ "as any".toList ++ ", c : d;".toList) = .typed ∧
        ∃ t t', (detect "as any".toList).trigger = some t ∧
          (detect ("alias = b".toList ++ "as any".toList ++ ", c : d;".toList)).trigger = some t' ∧
          (t' = t ∨ t'.rank < t.rank)) ∧
      (detect ("alias = b".toList ++ "as any".toList ++ ", c : d;".toList)).trigger = some .annotatedType ∧
      classify "x = y".toList = .plain ∧ classify "= y".toList = .plain := by
  have htyped : classify "as any".toList = .typed := by decide
  have hplain : classify "x = y".toList = .plain := by decide
  have hpart : "= y".toList <:+: "x = y".toList := ⟨['x', ' '], [], by decide⟩
  exact ⟨htyped, by decide, surroundings_never_hide.1 _ _ _ htyped, by decide, hplain,
    surroundings_never_hide.2 _ _ hpart hplain⟩

end ScriptTree
