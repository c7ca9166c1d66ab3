import Mathlib.Computability.Language
import ScriptTree.Pattern

/-! The search for a pattern is exact: it finds a part of the text in the language of the pattern whenever there
is one, wherever that part begins and however it splits. -/
namespace ScriptTree.Pattern

open scoped Computability

theorem matches_empty_iff {u : List Char} : Matches .empty u ↔ u = [] := by
  constructor
  · intro h
    cases h
    rfl
  · rintro rfl
    exact .empty

theorem matches_char_iff {k : CharClass} {u : List Char} :
    Matches (.char k) u ↔ ∃ c, k.mem c = true ∧ u = [c] := by
  constructor
  · intro h
    cases h with
    | char hc => exact ⟨_, hc, rfl⟩
  · rintro ⟨c, hc, rfl⟩
    exact .char hc

theorem matches_seq_iff {p q : Pattern} {u : List Char} :
    Matches (.seq p q) u ↔ ∃ s t, p.Matches s ∧ q.Matches t ∧ s ++ t = u := by
  constructor
  · intro h
    cases h with
    | seq hs ht => exact ⟨_, _, hs, ht, rfl⟩
  · rintro ⟨s, t, hs, ht, rfl⟩
    exact .seq hs ht

theorem matches_alt_iff {p q : Pattern} {u : List Char} :
    Matches (.alt p q) u ↔ p.Matches u ∨ q.Matches u := by
  constructor
  · intro h
    cases h with
    | altLeft h => exact Or.inl h
    | altRight h => exact Or.inr h
  · rintro (h | h)
    · exact .altLeft h
    · exact .altRight h

/-- A text of a repetition is made of texts of what is repeated. -/
theorem matches_star_iff {p : Pattern} {u : List Char} :
    Matches (.star p) u ↔ ∃ pieces : List (List Char), u = pieces.flatten ∧ ∀ s ∈ pieces, p.Matches s := by
  constructor
  · intro h
    generalize hq : Pattern.star p = q at h
    induction h with
    | starNil => exact ⟨[], rfl, by simp⟩
    | @starCons p' s t hs _ _ ih =>
      obtain rfl := Pattern.star.inj hq
      obtain ⟨pieces, rfl, hpieces⟩ := ih rfl
      exact ⟨s :: pieces, rfl, by simpa using ⟨hs, hpieces⟩⟩
    | _ => contradiction
  · rintro ⟨pieces, rfl, hpieces⟩
    induction pieces with
    | nil => exact .starNil
    | cons s pieces ih =>
      obtain ⟨hs, hrest⟩ := List.forall_mem_cons.1 hpieces
      exact .starCons hs (ih hrest)

/-- The language of a pattern, in the algebra of languages. -/
def language : Pattern → Language Char
  | .empty => 1
  | .char k => {u | ∃ c, k.mem c = true ∧ u = [c]}
  | .seq p q => p.language * q.language
  | .alt p q => p.language + q.language
  | .star p => p.language∗

theorem matches_iff_mem_language {p : Pattern} {u : List Char} : p.Matches u ↔ u ∈ p.language := by
  induction p generalizing u with
  | empty => exact matches_empty_iff
  | char k => exact matches_char_iff
  | seq p q hp hq =>
    simp only [matches_seq_iff, language, Language.mem_mul, hp, hq]
    constructor
    · rintro ⟨s, t, hs, ht, h⟩
      exact ⟨s, hs, t, ht, h⟩
    · rintro ⟨s, hs, t, ht, h⟩
      exact ⟨s, t, hs, ht, h⟩
  | alt p q hp hq => simp only [matches_alt_iff, language, Language.mem_add, hp, hq]
  | star p hp => simp only [matches_star_iff, language, Language.mem_kstar, hp]

theorem nullable_iff (p : Pattern) : p.nullable = true ↔ p.Matches [] := by
  induction p with
  | empty => simp [nullable, matches_empty_iff]
  | char k => simp [nullable, matches_char_iff]
  | seq p q hp hq =>
    simp only [nullable, Bool.and_eq_true, hp, hq, matches_seq_iff]
    constructor
    · rintro ⟨hp, hq⟩
      exact ⟨[], [], hp, hq, rfl⟩
    · rintro ⟨s, t, hs, ht, h⟩
      obtain ⟨rfl, rfl⟩ := List.append_eq_nil_iff.1 h
      exact ⟨hs, ht⟩
  | alt p q hp hq => simp only [nullable, Bool.or_eq_true, hp, hq, matches_alt_iff]
  | star p _ => exact iff_of_true rfl .starNil

theorem matches_append_iff {p q : Pattern} {u : List Char} :
    (p.append q).Matches u ↔ Matches (.seq p q) u := by
  cases p with
  | empty => simp [append, matches_seq_iff, matches_empty_iff]
  | _ => rfl

/-- A text of a sequence begins in the first part, or in the second if the first can be empty. -/
theorem matches_seq_cons_iff {p q : Pattern} {c : Char} {u : List Char} :
    Matches (.seq p q) (c :: u) ↔
      (∃ s t, p.Matches (c :: s) ∧ q.Matches t ∧ s ++ t = u) ∨ p.Matches [] ∧ q.Matches (c :: u) := by
  rw [matches_seq_iff]
  constructor
  · rintro ⟨s, t, hs, ht, h⟩
    cases s with
    | nil => exact Or.inr ⟨hs, h ▸ ht⟩
    | cons d s =>
      obtain ⟨rfl, rfl⟩ := List.cons.inj h
      exact Or.inl ⟨s, t, hs, ht, rfl⟩
  · rintro (⟨s, t, hs, ht, rfl⟩ | ⟨hp, hq⟩)
    · exact ⟨c :: s, t, hs, ht, rfl⟩
    · exact ⟨[], c :: u, hp, hq, rfl⟩

/-- A text of a repetition that is not empty begins with such a text of what is repeated. -/
theorem matches_star_cons_iff {p : Pattern} {c : Char} {u : List Char} :
    Matches (.star p) (c :: u) ↔ ∃ s t, p.Matches (c :: s) ∧ Matches (.star p) t ∧ s ++ t = u := by
  constructor
  · intro h
    obtain ⟨pieces, hu, hpieces⟩ := matches_star_iff.1 h
    clear h
    induction pieces with
    | nil => contradiction
    | cons piece pieces ih =>
      obtain ⟨hpiece, hrest⟩ := List.forall_mem_cons.1 hpieces
      cases piece with
      | nil => exact ih hu hrest
      | cons d s =>
        obtain ⟨rfl, rfl⟩ := List.cons.inj hu
        exact ⟨s, pieces.flatten, hpiece, matches_star_iff.2 ⟨pieces, rfl, hrest⟩, rfl⟩
  · rintro ⟨s, t, hs, ht, rfl⟩
    exact .starCons hs ht

theorem matches_map_append_iff {ps : List Pattern} {q : Pattern} {u : List Char} :
    (∃ r ∈ ps.map (append · q), r.Matches u) ↔
      ∃ s t, (∃ p ∈ ps, p.Matches s) ∧ q.Matches t ∧ s ++ t = u := by
  simp only [List.mem_map, exists_exists_and_eq_and, matches_append_iff, matches_seq_iff]
  constructor
  · rintro ⟨p, hp, s, t, hs, ht, h⟩
    exact ⟨s, t, ⟨p, hp, hs⟩, ht, h⟩
  · rintro ⟨s, t, ⟨p, hp, hs⟩, ht, h⟩
    exact ⟨p, hp, s, t, hs, ht, h⟩

/-- The step of the search: what may follow a character in a text of the pattern. -/
theorem matches_cons_iff (p : Pattern) (c : Char) (u : List Char) :
    p.Matches (c :: u) ↔ ∃ q ∈ p.after c, q.Matches u := by
  induction p generalizing u with
  | empty => simp [after, matches_empty_iff]
  | char k =>
    rw [after, matches_char_iff]
    constructor
    · rintro ⟨d, hd, h⟩
      obtain ⟨rfl, rfl⟩ := List.cons.inj h
      exact ⟨.empty, by simp [hd], .empty⟩
    · rintro ⟨q, hq, hu⟩
      split_ifs at hq with hc
      · obtain rfl := List.mem_singleton.1 hq
        obtain rfl := matches_empty_iff.1 hu
        exact ⟨c, hc, rfl⟩
      · contradiction
  | seq p q hp hq =>
    rw [matches_seq_cons_iff, ← nullable_iff, hq]
    simp only [hp, after, List.mem_append, or_and_right, exists_or, matches_map_append_iff]
    by_cases hn : p.nullable = true <;> simp [hn]
  | alt p q hp hq =>
    rw [matches_alt_iff, hp, hq]
    simp only [after, List.mem_append, or_and_right, exists_or]
  | star p hp =>
    rw [matches_star_cons_iff, after, matches_map_append_iff]
    simp only [hp]

/-- Whether a text begins with a text of one of the patterns. -/
def Begins (live : List Pattern) (s : List Char) : Prop := ∃ p ∈ live, ∃ u, u <+: s ∧ p.Matches u

theorem any_nullable_iff (live : List Pattern) :
    live.any nullable = true ↔ ∃ p ∈ live, p.Matches [] := by
  simp only [List.any_eq_true, nullable_iff]

theorem begins_nil_iff {live : List Pattern} : Begins live [] ↔ live.any nullable = true := by
  simp only [Begins, any_nullable_iff, List.prefix_nil, exists_eq_left]

theorem begins_cons_iff {live : List Pattern} {c : Char} {s : List Char} :
    Begins live (c :: s) ↔ live.any nullable = true ∨ Begins (live.flatMap (after c)) s := by
  rw [any_nullable_iff]
  constructor
  · rintro ⟨p, hp, u, hu, hmatch⟩
    cases u with
    | nil => exact Or.inl ⟨p, hp, hmatch⟩
    | cons d u =>
      obtain ⟨rfl, hrest⟩ := List.cons_prefix_cons.1 hu
      obtain ⟨q, hq, hmatch⟩ := (matches_cons_iff p d u).1 hmatch
      exact Or.inr ⟨q, List.mem_flatMap.2 ⟨p, hp, hq⟩, u, hrest, hmatch⟩
  · rintro (⟨p, hp, hmatch⟩ | ⟨q, hq, u, hu, hmatch⟩)
    · exact ⟨p, hp, [], List.nil_prefix, hmatch⟩
    · obtain ⟨p, hp, hq⟩ := List.mem_flatMap.1 hq
      exact ⟨p, hp, c :: u, List.cons_prefix_cons.2 ⟨rfl, hu⟩, (matches_cons_iff p c u).2 ⟨q, hq, hmatch⟩⟩

theorem begins_cons_live_iff {p : Pattern} {live : List Pattern} {s : List Char} :
    Begins (p :: live) s ↔ (∃ u, u <+: s ∧ p.Matches u) ∨ Begins live s := by
  simp [Begins]

/-- Whether some part of a text is in the language of the pattern. -/
def Occurs (p : Pattern) (s : List Char) : Prop := ∃ u, u <:+: s ∧ u ∈ p.language

theorem occurs_cons_iff {p : Pattern} {c : Char} {s : List Char} :
    p.Occurs (c :: s) ↔ (∃ u, u <+: c :: s ∧ p.Matches u) ∨ p.Occurs s := by
  simp only [Occurs, List.infix_cons_iff, or_and_right, exists_or, matches_iff_mem_language]

/-- The invariant of the search: it succeeds if one of the matches begun so far can be ended, or the pattern
occurs in what is left. -/
theorem searchFrom_iff (p : Pattern) (live : List Pattern) (s : List Char) :
    searchFrom p (p :: live) s = true ↔ Begins live s ∨ p.Occurs s := by
  induction s generalizing live with
  | nil =>
    have hoccurs : p.Occurs [] ↔ ∃ u, u <+: [] ∧ p.Matches u := by
      simp [Occurs, matches_iff_mem_language]
    rw [searchFrom, ← begins_nil_iff, begins_cons_live_iff, hoccurs, or_comm]
  | cons c s ih =>
    have hlater (ps : List Pattern) : Begins ps.eraseDups s ↔ Begins ps s := by
      simp only [Begins, List.mem_eraseDups]
    rw [searchFrom, Bool.or_eq_true, ih, hlater, ← or_assoc, ← begins_cons_iff, begins_cons_live_iff,
      occurs_cons_iff, or_left_comm, or_assoc]

theorem occursIn_iff (p : Pattern) (s : List Char) : p.occursIn s = true ↔ p.Occurs s := by
  rw [occursIn, searchFrom_iff]
  simp [Begins]

end ScriptTree.Pattern
