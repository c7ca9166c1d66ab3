import ScriptTree.Command.Run
import ScriptTree.Proofs.Text.Lossy

/-! The source text of a run. What is text in the input is read unchanged, and of all else each maximal
invalid part is read as one replacement character. -/
namespace ScriptTree.Command

/-- The bytes of the input: those of the file, or of standard input if there is none. -/
def inputBytes (host : Host Id) (a : Arguments) : Except ReadError (List UInt8) :=
  match a.input? with
  | some path => host.readFile path
  | none => host.readInput

theorem source_of_bytes {host : Host Id} {a : Arguments} {bytes : List UInt8}
    (h : inputBytes host a = .ok bytes) :
    source host a = .ok (String.ofList (Text.decodeLossy bytes)) := by
  unfold inputBytes at h
  unfold source
  cases hinput : a.input? with
  | none =>
    simp only [hinput] at h ⊢
    rw [h]
    rfl
  | some path =>
    simp only [hinput] at h ⊢
    rw [h]
    rfl

/-- An input that can be read gives the one text that keeps its characters and replaces its maximal invalid
parts. That is the text itself if the input is its encoding, and a text that was read is read again
unchanged. -/
theorem source_keeps_text {host : Host Id} {a : Arguments} {bytes : List UInt8}
    (h : inputBytes host a = .ok bytes) :
    ∃ text : String, source host a = .ok text ∧
      (∀ s, Text.LossyText bytes s ↔ text.toList = s) ∧
      (∀ s : String, bytes = Text.toUtf8 s.toList → text = s) ∧
      ∀ (again : Host Id) (b : Arguments), inputBytes again b = .ok (Text.toUtf8 text.toList) →
        source again b = .ok text := by
  refine ⟨String.ofList (Text.decodeLossy bytes), source_of_bytes h, ?_, ?_, ?_⟩
  · intro s
    rw [Text.lossyText_iff, String.toList_ofList]
  · rintro s rfl
    rw [Text.decodeLossy_toUtf8, String.ofList_toList]
  · intro again b hagain
    rw [source_of_bytes hagain, Text.decodeLossy_toUtf8, String.ofList_toList]

/-- An input with a character cut off, a surrogate, a form that is too long and a whole character. -/
def brokenInput : Host Id where
  readFile _ := .error .notFound
  readInput := .ok [0x61, 0xF0, 0x9F, 0x98, 0x62, 0xED, 0xA0, 0x80, 0xC0, 0xAF, 0xC3, 0xA9, 0xE2, 0x82]
  configHome := none
  home := none

theorem brokenInput_keeps_text :
    inputBytes brokenInput {} =
      .ok [0x61, 0xF0, 0x9F, 0x98, 0x62, 0xED, 0xA0, 0x80, 0xC0, 0xAF, 0xC3, 0xA9, 0xE2, 0x82] ∧
    source brokenInput {} = .ok "a\uFFFDb\uFFFD\uFFFD\uFFFD\uFFFD\uFFFDé\uFFFD" := by
  have h : inputBytes brokenInput {} =
      .ok [0x61, 0xF0, 0x9F, 0x98, 0x62, 0xED, 0xA0, 0x80, 0xC0, 0xAF, 0xC3, 0xA9, 0xE2, 0x82] := rfl
  refine ⟨h, ?_⟩
  obtain ⟨text, htext, hlossy, -, -⟩ := source_keeps_text h
  have hread : text.toList = "a\uFFFDb\uFFFD\uFFFD\uFFFD\uFFFD\uFFFDé\uFFFD".toList := by
    rw [← hlossy, Text.lossyText_iff]
    decide +kernel
  rw [htext, String.toList_inj.1 hread]

end ScriptTree.Command
