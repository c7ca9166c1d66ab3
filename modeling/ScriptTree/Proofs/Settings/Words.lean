import Mathlib.Data.List.Nodup
import ScriptTree.Settings.Basic

/-! The things that can be set, and the words by which they are set. Each value has one word, the same on the
command line and in files, and no other word is understood. -/
namespace ScriptTree

/-- The things that can be set. -/
inductive Setting where
  | strategy
  | dialect
  | plainTree
  | offsets
  | pretty
  deriving DecidableEq, Repr

namespace Setting

/-- What a setting is set to. -/
abbrev Value : Setting → Type
  | .strategy => Strategy
  | .dialect => DialectChoice
  | .plainTree => Shape
  | .offsets => OffsetUnit
  | .pretty => Bool

/-- The word for a value of a setting. -/
def word : (k : Setting) → k.Value → String
  | .strategy, .heuristic => "heuristic"
  | .strategy, .fallback => "fallback"
  | .dialect, .auto => "auto"
  | .dialect, .fixed .typed => "typescript"
  | .dialect, .fixed .plain => "javascript"
  | .plainTree, .native => "native"
  | .plainTree, .normalized => "normalized"
  | .offsets, .utf16 => "utf16"
  | .offsets, .utf8 => "utf8"
  | .offsets, .chars => "chars"
  | .pretty, true => "true"
  | .pretty, false => "false"

end Setting

/-- Whether the values of a type are read from these words, each from its own, and from no others. -/
def ReadByWord {α : Type} [Named α] (word : α → String) : Prop :=
  ∀ s a, Named.ofName? s = some a ↔ s = word a

theorem readByWord {α : Type} [Named α] {word : α → String} (hall : ∀ a : α, a ∈ (Named.all : List α))
    (hnames : (Named.all : List α).map Named.name = (Named.all : List α).map word)
    (hwords : ((Named.all : List α).map word).Nodup) : ReadByWord word := by
  have hname (a : α) : Named.name a = word a := List.map_inj_left.1 hnames a (hall a)
  intro s a
  rw [Named.ofName?]
  constructor
  · intro h
    have hs := List.find?_some h
    rw [← hname, beq_iff_eq.1 hs]
  · rintro rfl
    cases hfind : (Named.all : List α).find? fun b => Named.name b == word a with
    | none =>
      have hnot := List.find?_eq_none.1 hfind a (hall a)
      simp [hname] at hnot
    | some b =>
      have hb := List.find?_some hfind
      rw [hname, beq_iff_eq] at hb
      rw [List.inj_on_of_nodup_map hwords (hall b) (hall a) hb]

/-- The words of the table are the ones that are read. -/
theorem Setting.word_read :
    ReadByWord Setting.strategy.word ∧ ReadByWord Setting.dialect.word ∧
      ReadByWord Setting.plainTree.word ∧ ReadByWord Setting.offsets.word :=
  ⟨readByWord (by rintro (_ | _) <;> decide) (by decide) (by decide),
   readByWord (by rintro (_ | _ | _) <;> decide) (by decide) (by decide),
   readByWord (by rintro (_ | _) <;> decide) (by decide) (by decide),
   readByWord (by rintro (_ | _ | _) <;> decide) (by decide) (by decide)⟩

end ScriptTree
