import ScriptTree.Proofs.Settings.Words
import ScriptTree.Proofs.Text.Decoding
import ScriptTree.Settings.File

/-! Which settings files are accepted. What a file is to have for a setting is said here for itself: the section
with the setting, and the right values in it. A file is read setting by setting, and one wrong value refuses all
of it. -/
namespace ScriptTree

theorem Toml.Entries.get?_eq_lookup (entries : Toml.Entries) (key : String) :
    entries.get? key = entries.lookup key := by
  induction entries with
  | nil => rfl
  | cons entry entries ih =>
    obtain ⟨name, v⟩ := entry
    rw [Toml.Entries.get?] at ih ⊢
    by_cases hkey : name = key
    · simp [hkey]
    · have hne : (key == name) = false := by simpa using Ne.symm hkey
      simp [List.lookup_cons, hkey, hne, ih]

namespace Setting

/-- The section that a setting stands in. -/
def sectionName : Setting → String
  | .strategy | .dialect => "detect"
  | .plainTree | .offsets | .pretty => "output"

def key : Setting → String
  | .strategy => "strategy"
  | .dialect => "dialect"
  | .plainTree => "plain_tree"
  | .offsets => "offsets"
  | .pretty => "pretty"

/-- The place of a setting in a section that is an array. -/
def place : Setting → Nat
  | .strategy | .plainTree => 0
  | .dialect | .offsets => 1
  | .pretty => 2

/-- What is in a section for a setting, if anything. A section is a table, or an array that has the settings by
their places. A date stands for one with nothing in it. -/
inductive InSection (k : Setting) : Toml.Value → Option Toml.Value → Prop
  | byKey (origin : Toml.Origin) (entries : Toml.Entries) :
      InSection k (.table origin entries) (entries.lookup k.key)
  | byPlace (items : List Toml.Value) : InSection k (.array items) items[k.place]?
  | byRow (rows : List Toml.Entries) : InSection k (.tables rows) (rows[k.place]?.map (.table .header))
  | date (text : String) : InSection k (.datetime text) none

/-- A table or an array with nothing in it. -/
inductive Bare : Toml.Value → Prop
  | array : Bare (.array [])
  | table (origin : Toml.Origin) : Bare (.table origin [])
  | tables : Bare (.tables [])

/-- The right values for a setting, and what they set it to: the word for that, also as the only key of a table
with nothing under it, and true or false for the one setting that is no word. -/
inductive Right : (k : Setting) → Toml.Value → k.Value → Prop
  | word {k : Setting} (hk : k ≠ .pretty) (x : k.Value) : Right k (.str (k.word x)) x
  | key {k : Setting} (hk : k ≠ .pretty) (x : k.Value) (origin : Toml.Origin) {under : Toml.Value}
      (hunder : Bare under) : Right k (.table origin [(k.word x, under)]) x
  | switch (b : Bool) : Right .pretty (.bool b) b

/-- What a document says of a setting: nothing, or a right value. -/
inductive SaidIn (k : Setting) (entries : Toml.Entries) : Option k.Value → Prop
  | noSection (h : entries.lookup k.sectionName = none) : SaidIn k entries none
  | nothing {top : Toml.Value} (h : entries.lookup k.sectionName = some top) (hs : k.InSection top none) :
      SaidIn k entries none
  | value {top v : Toml.Value} {x : k.Value} (h : entries.lookup k.sectionName = some top)
      (hs : k.InSection top (some v)) (hv : k.Right v x) : SaidIn k entries (some x)

/-- Whether a document is wrong in a setting: there is no section where there should be one, or the value is none
of the right ones. -/
inductive WrongIn (k : Setting) (entries : Toml.Entries) : Prop
  | noSection {top : Toml.Value} (h : entries.lookup k.sectionName = some top)
      (hs : ∀ found, ¬k.InSection top found)
  | noValue {top v : Toml.Value} (h : entries.lookup k.sectionName = some top)
      (hs : k.InSection top (some v)) (hv : ∀ x, ¬k.Right v x)

/-- The reader of the values of a setting. -/
def read? : (k : Setting) → Toml.Value → Option k.Value
  | .strategy => Settings.named?
  | .dialect => Settings.named?
  | .plainTree => Settings.named?
  | .offsets => Settings.named?
  | .pretty => Settings.bool?

theorem isEmpty_iff {v : Toml.Value} : Settings.isEmpty v ↔ Bare v := by
  constructor
  · intro h
    unfold Settings.isEmpty at h
    split at h
    · exact .array
    · exact .table _
    · exact .tables
    · contradiction
  · rintro (_ | _ | _) <;> rfl

theorem named?_eq_some_iff {α : Type} [Named α] {word : α → String} (hword : ReadByWord word) {v : Toml.Value}
    {x : α} :
    Settings.named? v = some x ↔
      v = .str (word x) ∨ ∃ origin under, Bare under ∧ v = .table origin [(word x, under)] := by
  constructor
  · intro h
    unfold Settings.named? at h
    split at h
    · exact Or.inl (by rw [(hword _ _).1 h])
    · next origin key under =>
      split_ifs at h with hunder
      exact Or.inr ⟨origin, under, isEmpty_iff.1 hunder, by rw [(hword _ _).1 h]⟩
    · contradiction
  · rintro (rfl | ⟨origin, under, hunder, rfl⟩)
    · exact (hword _ _).2 rfl
    · rw [Settings.named?, if_pos (isEmpty_iff.2 hunder)]
      exact (hword _ _).2 rfl

theorem right_iff {k : Setting} (hk : k ≠ .pretty) {v : Toml.Value} {x : k.Value} :
    k.Right v x ↔
      v = .str (k.word x) ∨ ∃ origin under, Bare under ∧ v = .table origin [(k.word x, under)] := by
  constructor
  · intro h
    cases h with
    | word => exact Or.inl rfl
    | key _ _ origin hunder => exact Or.inr ⟨origin, _, hunder, rfl⟩
    | switch => contradiction
  · rintro (rfl | ⟨origin, under, hunder, rfl⟩)
    · exact .word hk x
    · exact .key hk x origin hunder

/-- The right values are the ones that are read. -/
theorem read?_eq_some_iff {k : Setting} {v : Toml.Value} {x : k.Value} : k.read? v = some x ↔ k.Right v x := by
  obtain ⟨hstrategy, hdialect, hshape, hoffsets⟩ := word_read
  cases k with
  | strategy => exact (named?_eq_some_iff hstrategy).trans (right_iff (k := .strategy) (by decide)).symm
  | dialect => exact (named?_eq_some_iff hdialect).trans (right_iff (k := .dialect) (by decide)).symm
  | plainTree => exact (named?_eq_some_iff hshape).trans (right_iff (k := .plainTree) (by decide)).symm
  | offsets => exact (named?_eq_some_iff hoffsets).trans (right_iff (k := .offsets) (by decide)).symm
  | pretty =>
    constructor
    · intro h
      cases v with
      | bool b =>
        obtain rfl := Option.some.inj h
        exact .switch b
      | _ => cases h
    · intro h
      cases h with
      | switch => rfl
      | word hk | key hk => contradiction

theorem inSection_iff {k : Setting} {top : Toml.Value} {found : Option Toml.Value} :
    k.InSection top found ↔ ∃ slot, Settings.slots? top = some slot ∧ slot k.place k.key = found := by
  constructor
  · rintro (_ | _ | _ | _)
    · exact ⟨_, rfl, Toml.Entries.get?_eq_lookup _ _⟩
    · exact ⟨_, rfl, rfl⟩
    · exact ⟨_, rfl, rfl⟩
    · exact ⟨_, rfl, rfl⟩
  · rintro ⟨slot, hslot, rfl⟩
    unfold Settings.slots? at hslot
    split at hslot <;> cases hslot
    · dsimp only
      rw [Toml.Entries.get?_eq_lookup]
      exact .byKey _ _
    · exact .byPlace _
    · exact .byRow _
    · exact .date _

end Setting

namespace Settings

def get? (s : Settings) : (k : Setting) → Option k.Value
  | .strategy => s.strategy
  | .dialect => s.dialect
  | .plainTree => s.plainTree
  | .offsets => s.offsets
  | .pretty => s.pretty

theorem ext_get? {s t : Settings} (h : ∀ k, s.get? k = t.get? k) : s = t := by
  cases s
  cases t
  congr
  · exact h .strategy
  · exact h .dialect
  · exact h .plainTree
  · exact h .offsets
  · exact h .pretty

/-- Whether a file is accepted, with the settings that it gives: it is UTF-8, it is TOML, and all that it says of
settings is right. -/
def Accepted (layer : Option (List UInt8)) (s : Settings) : Prop :=
  ∃ text entries, layer = some (Text.toUtf8 text) ∧ Toml.parse? text = some entries ∧
    ∀ k : Setting, k.SaidIn entries (s.get? k)

/-- Whether a file is refused: it is missing, no UTF-8, no TOML, or wrong in some setting. -/
inductive Refused : Option (List UInt8) → Prop
  | missing : Refused none
  | noText {bytes : List UInt8} (h : ∀ text, bytes ≠ Text.toUtf8 text) : Refused (some bytes)
  | noDocument {text : List Char} (h : Toml.parse? text = none) : Refused (some (Text.toUtf8 text))
  | wrong {text : List Char} {entries : Toml.Entries} {k : Setting}
      (hparse : Toml.parse? text = some entries) (h : k.WrongIn entries) : Refused (some (Text.toUtf8 text))

/-- What is read of a document for a setting, unless it is wrong. -/
def readAt? (entries : Toml.Entries) (k : Setting) : Option (Option k.Value) :=
  (sectionSlots? entries k.sectionName).bind fun slot => optional k.read? (slot k.place k.key)

theorem readAt?_eq_some_iff {entries : Toml.Entries} {k : Setting} {said : Option k.Value} :
    readAt? entries k = some said ↔ k.SaidIn entries said := by
  unfold readAt? sectionSlots?
  rw [Toml.Entries.get?_eq_lookup]
  constructor
  · intro h
    obtain ⟨slot, hslot, hread⟩ := Option.bind_eq_some_iff.1 h
    cases hsection : entries.lookup k.sectionName with
    | none =>
      rw [hsection] at hslot
      obtain rfl := Option.some.inj hslot
      obtain rfl := Option.some.inj hread
      exact .noSection hsection
    | some top =>
      rw [hsection] at hslot
      have hfound : k.InSection top (slot k.place k.key) := Setting.inSection_iff.2 ⟨slot, hslot, rfl⟩
      cases hv : slot k.place k.key with
      | none =>
        rw [hv] at hread hfound
        obtain rfl := Option.some.inj hread
        exact .nothing hsection hfound
      | some v =>
        rw [hv] at hread hfound
        obtain ⟨x, hx, rfl⟩ := Option.map_eq_some_iff.1 hread
        exact .value hsection hfound (Setting.read?_eq_some_iff.1 hx)
  · intro h
    cases h with
    | noSection hsection =>
      rw [hsection]
      rfl
    | nothing hsection hs =>
      obtain ⟨slot, hslot, hv⟩ := Setting.inSection_iff.1 hs
      rw [hsection]
      simp only [hslot, Option.bind_some, hv, optional]
    | value hsection hs hx =>
      obtain ⟨slot, hslot, hv⟩ := Setting.inSection_iff.1 hs
      rw [hsection]
      simp only [hslot, Option.bind_some, hv, optional, Setting.read?_eq_some_iff.2 hx, Option.map_some]

/-- A document that is not read for a setting is wrong in it. -/
theorem readAt?_eq_none_iff {entries : Toml.Entries} {k : Setting} :
    readAt? entries k = none ↔ k.WrongIn entries := by
  constructor
  · intro h
    have hnot (said : Option k.Value) : ¬k.SaidIn entries said := by
      rw [← readAt?_eq_some_iff, h]
      nofun
    cases hsection : entries.lookup k.sectionName with
    | none => exact absurd (.noSection hsection) (hnot none)
    | some top =>
      by_cases hfound : ∃ found, k.InSection top found
      · obtain ⟨_ | v, hs⟩ := hfound
        · exact absurd (.nothing hsection hs) (hnot none)
        · exact .noValue hsection hs fun x hx => hnot (some x) (.value hsection hs hx)
      · exact .noSection hsection (not_exists.1 hfound)
  · intro h
    unfold readAt? sectionSlots?
    rw [Toml.Entries.get?_eq_lookup]
    cases h with
    | @noSection top hsection hs =>
      have hslots : slots? top = none := by
        rw [Option.eq_none_iff_forall_ne_some]
        intro slot hslot
        exact hs _ (Setting.inSection_iff.2 ⟨slot, hslot, rfl⟩)
      simp only [hsection, hslots, Option.bind_none]
    | @noValue top v hsection hs hv =>
      obtain ⟨slot, hslot, hfound⟩ := Setting.inSection_iff.1 hs
      have hread : k.read? v = none := by
        rw [Option.eq_none_iff_forall_ne_some]
        intro x hx
        exact hv x (Setting.read?_eq_some_iff.1 hx)
      simp only [hsection, hslot, Option.bind_some, hfound, optional, hread, Option.map_none]

theorem readAt?_of_section {entries : Toml.Entries} {k : Setting}
    {slot : Nat → String → Option Toml.Value}
    (h : sectionSlots? entries k.sectionName = some slot) :
    readAt? entries k = optional k.read? (slot k.place k.key) := by
  rw [readAt?, h, Option.bind_some]

/-- A document is read if each setting is, and each on its own. -/
theorem ofEntries?_eq_some_iff {entries : Toml.Entries} {s : Settings} :
    ofEntries? entries = some s ↔ ∀ k, readAt? entries k = some (s.get? k) := by
  simp only [ofEntries?, Option.bind_eq_bind, Option.bind_eq_some_iff, Option.some.injEq]
  constructor
  · rintro ⟨detect, hdetect, output, houtput, strategy, hstrategy, dialect, hdialect, plainTree,
      hplainTree, offsets, hoffsets, pretty, hpretty, rfl⟩ (_ | _ | _ | _ | _)
    · exact (readAt?_of_section (k := .strategy) hdetect).trans hstrategy
    · exact (readAt?_of_section (k := .dialect) hdetect).trans hdialect
    · exact (readAt?_of_section (k := .plainTree) houtput).trans hplainTree
    · exact (readAt?_of_section (k := .offsets) houtput).trans hoffsets
    · exact (readAt?_of_section (k := .pretty) houtput).trans hpretty
  · intro h
    obtain ⟨detect, hdetect, hstrategy⟩ := Option.bind_eq_some_iff.1 (h .strategy)
    obtain ⟨output, houtput, hplainTree⟩ := Option.bind_eq_some_iff.1 (h .plainTree)
    have hdialect := (readAt?_of_section (k := .dialect) hdetect).symm.trans (h .dialect)
    have hoffsets := (readAt?_of_section (k := .offsets) houtput).symm.trans (h .offsets)
    have hpretty := (readAt?_of_section (k := .pretty) houtput).symm.trans (h .pretty)
    exact ⟨detect, hdetect, output, houtput, _, hstrategy, _, hdialect, _, hplainTree, _, hoffsets, _,
      hpretty, rfl⟩

/-- There are settings that are read unless something is wrong. -/
theorem ofEntries?_isSome_of_forall {entries : Toml.Entries}
    (h : ∀ k : Setting, ¬k.WrongIn entries) : ∃ s, ofEntries? entries = some s := by
  have hread (k : Setting) : ∃ said, readAt? entries k = some said := by
    rw [← Option.ne_none_iff_exists', Ne, readAt?_eq_none_iff]
    exact h k
  obtain ⟨strategy, hstrategy⟩ := hread .strategy
  obtain ⟨dialect, hdialect⟩ := hread .dialect
  obtain ⟨plainTree, hplainTree⟩ := hread .plainTree
  obtain ⟨offsets, hoffsets⟩ := hread .offsets
  obtain ⟨pretty, hpretty⟩ := hread .pretty
  refine ⟨⟨strategy, dialect, plainTree, offsets, pretty⟩, ofEntries?_eq_some_iff.2 ?_⟩
  rintro (_ | _ | _ | _ | _)
  · exact hstrategy
  · exact hdialect
  · exact hplainTree
  · exact hoffsets
  · exact hpretty

theorem accepted_iff {layer : Option (List UInt8)} {s : Settings} :
    Accepted layer s ↔ layer.bind ofBytes? = some s := by
  simp only [Accepted, ← readAt?_eq_some_iff, ← ofEntries?_eq_some_iff, ofBytes?, Option.bind_eq_bind,
    Option.bind_eq_some_iff, Text.decode?_eq_some_iff]
  constructor
  · rintro ⟨text, entries, rfl, hparse, hs⟩
    exact ⟨_, rfl, text, rfl, entries, hparse, hs⟩
  · rintro ⟨bytes, rfl, text, rfl, entries, hparse, hs⟩
    exact ⟨text, entries, rfl, hparse, hs⟩

/-- A file is refused for one of the reasons, or else accepted. -/
theorem refused_iff {layer : Option (List UInt8)} : Refused layer ↔ ¬∃ s, Accepted layer s := by
  constructor
  · rintro hrefused ⟨s, text, entries, rfl, hparse, hs⟩
    generalize hbytes : some (Text.toUtf8 text) = layer at hrefused
    have hinj {u : List Char} (hu : some (Text.toUtf8 text) = some (Text.toUtf8 u)) : text = u := by
      have hdecode := Text.decode?_toUtf8 text
      rw [Option.some.inj hu, Text.decode?_toUtf8] at hdecode
      exact (Option.some.inj hdecode).symm
    cases hrefused with
    | missing => contradiction
    | noText h => exact h text (Option.some.inj hbytes).symm
    | noDocument h =>
      obtain rfl := hinj hbytes
      rw [h] at hparse
      contradiction
    | @wrong u entries' k hparse' h =>
      obtain rfl := hinj hbytes
      rw [hparse'] at hparse
      obtain rfl := Option.some.inj hparse
      have hsaid := readAt?_eq_some_iff.2 (hs k)
      rw [readAt?_eq_none_iff.2 h] at hsaid
      contradiction
  · intro hnone
    cases layer with
    | none => exact .missing
    | some bytes =>
      by_cases htext : ∃ text, bytes = Text.toUtf8 text
      · obtain ⟨text, rfl⟩ := htext
        cases hparse : Toml.parse? text with
        | none => exact .noDocument hparse
        | some entries =>
          by_cases hwrong : ∃ k : Setting, k.WrongIn entries
          · obtain ⟨k, hk⟩ := hwrong
            exact .wrong hparse hk
          · obtain ⟨s, hs⟩ := ofEntries?_isSome_of_forall (not_exists.1 hwrong)
            refine absurd ⟨s, accepted_iff.2 ?_⟩ hnone
            simp [ofBytes?, Text.decode?_toUtf8, hparse, hs]
      · exact .noText fun text heq => htext ⟨text, heq⟩

end Settings

end ScriptTree
