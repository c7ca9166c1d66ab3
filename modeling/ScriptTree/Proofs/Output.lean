import ScriptTree.Command.Run
import ScriptTree.Proofs.Fallback
import ScriptTree.Proofs.Json.Parser
import ScriptTree.Proofs.Json.Printer
import ScriptTree.Proofs.Report
import ScriptTree.Proofs.Walk

/-! What a run writes: one JSON text and a line break, from which the report can be read back. -/
namespace ScriptTree.Command

/-- The report on the given arguments: what the pipeline of the settings has to say of the source, or that
there is no source. -/
inductive Reported (host : Host Id) (engines : Dialect → Option Engine) (a : Arguments) : Report → Prop
  | source {text : String} (h : source host a = .ok text) :
      Reported host engines a
        ((Pipeline.new (settings host a).options (engines .typed) (engines .plain)).run text)
  | noSource {message : String} (h : source host a = .error message) : Reported host engines a (.failed message)

theorem reported_iff {host : Host Id} {engines : Dialect → Option Engine} {a : Arguments} {r : Report} :
    Reported host engines a r ↔ r = report host engines a (settings host a) := by
  unfold report
  constructor
  · rintro (h | h)
    · rw [h]
      rfl
    · rw [h]
      rfl
  · rintro rfl
    cases h : source host a with
    | ok text => exact .source h
    | error message => exact .noSource h

/-- The style in which a run with the given settings is to be written. -/
theorem style_eq (s : Settings) : s.style = if s.pretty = some true then .pretty else .compact := by
  rcases s with ⟨_, _, _, _, _ | _ | _⟩ <;> rfl

section Run

variable (host : Host Id) (engines : Dialect → Option Engine) (argv : List String)

theorem run_eq :
    run host engines argv = (Arguments.parse argv).map fun a =>
      output (settings host a).style (report host engines a (settings host a)) := by
  unfold run
  cases Arguments.parse argv <;> rfl

theorem run_eq_error_iff {e : ArgumentError} :
    run host engines argv = .error e ↔ Arguments.parse argv = .error e := by
  rw [run_eq]
  cases Arguments.parse argv with
  | error e' =>
    constructor
    · intro h
      rw [Except.error.inj h]
    · intro h
      rw [Except.error.inj h]
      rfl
  | ok a => exact ⟨nofun, nofun⟩

/-- A run writes the report on its arguments, spread over lines if the settings want it so. -/
theorem run_eq_ok_iff {out : String} :
    run host engines argv = .ok out ↔
      ∃ a r, Arguments.parse argv = .ok a ∧ Reported host engines a r ∧
        out = output (if (settings host a).pretty = some true then .pretty else .compact) r := by
  rw [run_eq]
  cases Arguments.parse argv with
  | error e => exact ⟨nofun, fun ⟨a, r, h, _⟩ => nomatch h⟩
  | ok a =>
    constructor
    · intro h
      refine ⟨a, _, rfl, reported_iff.2 rfl, ?_⟩
      rw [← style_eq]
      exact (Except.ok.inj h).symm
    · rintro ⟨_, r, ⟨⟩, hr, rfl⟩
      rw [← style_eq, reported_iff.1 hr]
      rfl

end Run

variable (parsers : Dialect → Option TreeParser)

/-- The engines over parsers of the dialects. -/
def enginesOf (dialect : Dialect) : Option Engine := (parsers dialect).map (Engine.ofTrees dialect)

theorem possible_run (options : Options) (source : String) :
    ((Pipeline.new options (enginesOf parsers .typed) (enginesOf parsers .plain)).run source).Possible := by
  generalize hp : Pipeline.new options (enginesOf parsers .typed) (enginesOf parsers .plain) = p
  cases hrun : p.run source with
  | failed message => exact .failed message
  | parsed dialect ast =>
    have hparse : (p.withStrategy p.options.strategy).parse source = .ok (dialect, ast) :=
      Pipeline.run_eq_parsed_iff.1 hrun
    obtain ⟨engine, hengine, hast⟩ := Pipeline.accepts_of_parse hparse
    have hengines : p.engine? dialect = enginesOf parsers dialect := by
      subst hp
      cases dialect <;> rfl
    rw [hengines] at hengine
    obtain ⟨parser, -, rfl⟩ := Option.map_eq_some_iff.1 hengine
    obtain ⟨t, -, -, rfl⟩ := Engine.exists_of_parse_ofTrees hast
    unfold Tree.describe
    split
    · exact .normalized dialect _
    · exact .native dialect _ _ _ t

theorem Reported.possible {host : Host Id} {a : Arguments} {r : Report}
    (h : Reported host (enginesOf parsers) a r) : r.Possible := by
  cases h with
  | source => exact possible_run parsers _ _
  | noSource => exact .failed _

/-- A run writes the report on its arguments, if these are right. What is written is one JSON text and a line
break. It is a text of the value that stands for the report and of no other, in either style, no object in it has
a key twice, and the compact one is a single line. -/
theorem output_decodes :
    (∀ (host : Host Id) (engines : Dialect → Option Engine) (argv : List String),
      (∀ e, run host engines argv = .error e ↔ Arguments.parse argv = .error e) ∧
      ∀ out, run host engines argv = .ok out ↔
        ∃ a r, Arguments.parse argv = .ok a ∧ Reported host engines a r ∧
          out = output (if (settings host a).pretty = some true then .pretty else .compact) r) ∧
    (∀ (host : Host Id) (a : Arguments) (r : Report), Reported host (enginesOf parsers) a r → r.Possible) ∧
    (∀ (r : Report) (j : Json), r.Shown j ↔ j = r.toJson) ∧
    ∀ (r : Report) (style : Json.Style), r.Possible →
      ∃ text, (output style r).toList = text ++ ['\n'] ∧
        Json.PhraseText (.value r.toJson) text ∧
        (∀ v, Json.PhraseText (.element v) (text ++ ['\n']) ↔ v = r.toJson) ∧
        Json.parse? (text ++ ['\n']) = some r.toJson ∧
        (r.toJson.members.map (·.1) = if r.isFailed then ["error"] else ["parser", "ast"]) ∧
        r.toJson.DistinctKeys ∧
        (style = .compact → '\n' ∉ text) := by
  refine ⟨fun host engines argv => ⟨fun e => run_eq_error_iff host engines argv,
    fun out => run_eq_ok_iff host engines argv⟩, fun host a r => Reported.possible parsers,
    fun r j => Report.shown_iff, fun r style h => ?_⟩
  have hvalue := Json.phraseText_render style r.toJson
  have helement : Json.PhraseText (.element r.toJson) (r.toJson.render style ++ ['\n']) :=
    .element Json.blank_nil hvalue (by simp [Json.Blank])
  have hparse := Json.parse?_of_phraseText helement
  refine ⟨r.toJson.render style, String.toList_ofList, hvalue, fun v => ⟨fun hv => ?_, ?_⟩, hparse, ?_,
    h.distinctKeys, ?_⟩
  · have hother := Json.parse?_of_phraseText hv
    rw [hparse] at hother
    exact (Option.some.inj hother).symm
  · rintro rfl
    exact helement
  · cases r <;> rfl
  · rintro rfl
    exact Json.newline_not_mem_render r.toJson

/-- Surroundings in which nothing can be read but an empty input. -/
def silent : Host Id where
  readFile _ := .error .notFound
  readInput := .ok []
  configHome := none
  home := none

/-- The engines over a parser that finds nothing in any source. -/
def idle : Dialect → Option Engine := enginesOf fun _ => some Tree.emptyParser

/-- The report on a file whose name has a quote, a backslash, a line break and a control character. -/
def oddlyNamed : Report :=
  .failed "failed to read \"\\\n\x01: No such file or directory (os error 2)"

/-- The report on an empty source. -/
def emptyParsed : Report :=
  .parsed .plain (.normalized
    { kind := "program", kindNumber := 134, pos := some 0, stop := some 0, text := some "" })

theorem normalize_emptyProgram {g : Grammar} (h : g.entry? 134 = some { name := some "program" }) :
    Tree.emptyProgram.normalize g [] .utf16 =
      { kind := "program", kindNumber := 134, pos := some 0, stop := some 0, text := some "" } := by
  have hread : Tree.emptyProgram.toSyntax g [] = { kind := 134, start := 0, stop := 0, text := some "" } := by
    simp only [Tree.toSyntax, Tree.emptyProgram, Tree.read, Tree.readList, Reading.ofChildren, Reading.text?,
      Grammar.category, Grammar.isAtomic, Grammar.isKeywordOwner, h]
    rfl
  rw [Tree.normalize, hread]
  simp only [Record.ofNode, Grammar.table, Grammar.category, Record.base, Grammar.kindName, h]
  rfl

theorem run_idle :
    (Pipeline.new { dialect := some .plain, plainTree := .normalized } (idle .typed) (idle .plain)).run "" =
      emptyParsed := by
  have hparse : (Engine.ofTrees .plain Tree.emptyParser).parse "" ⟨.normalized, .utf16⟩ =
      .ok (Tree.emptyProgram.describe .plain [] ⟨.normalized, .utf16⟩) := by
    rw [Engine.parse_ofTrees]
    simp only [Tree.emptyParser, Tree.check_eq]
    rfl
  rw [Tree.describe, normalize_emptyProgram (by decide +kernel)] at hparse
  rw [Pipeline.run_eq_reportOf, Pipeline.parse_of_accepts ⟨_, rfl, hparse⟩]
  rfl

theorem oddlyNamed_output_decodes :
    (run silent idle ["\"\\\n\x01"] =
        .ok "\x7b\"error\":\"failed to read \\\"\\\\\\n\\u0001: No such file or directory (os error 2)\"\x7d\n" ∧
      run silent idle ["--dialect=javascript", "--plain-tree=normalized", "--pretty"] =
        .ok ("\x7b\n  \"parser\": \"javascript\",\n  \"ast\": \x7b\n    \"kind\": \"program\",\n" ++
          "    \"kindNumber\": 134,\n    \"pos\": 0,\n    \"end\": 0,\n    \"text\": \"\"\n  \x7d\n\x7d\n")) ∧
    oddlyNamed.Possible ∧ emptyParsed.Possible ∧
    oddlyNamed.Shown
      (.obj [("error", .str "failed to read \"\\\n\x01: No such file or directory (os error 2)")]) ∧
    emptyParsed.Shown
      (.obj [("parser", .str "javascript"),
        ("ast", .obj [("kind", .str "program"), ("kindNumber", .int 134), ("pos", .int 0), ("end", .int 0),
          ("text", .str "")])]) ∧
    ∃ line text, (output .compact oddlyNamed).toList = line ++ ['\n'] ∧ '\n' ∉ line ∧
      Json.parse? (line ++ ['\n']) = some oddlyNamed.toJson ∧
      (output .pretty emptyParsed).toList = text ++ ['\n'] ∧
      Json.parse? (text ++ ['\n']) = some emptyParsed.toJson := by
  obtain ⟨hrun, hpossible, hshown, hdecodes⟩ := output_decodes fun _ => some Tree.emptyParser
  have hfirst : Reported silent idle { file := some "\"\\\n\x01" } oddlyNamed := .noSource rfl
  have hsecond : Reported silent idle
      { dialect := some (.fixed .plain), plainTree := some .normalized, pretty := true } emptyParsed := by
    have hempty : String.ofList (Text.decodeLossy []) = "" := by decide +kernel
    rw [← run_idle]
    exact .source (congrArg Except.ok hempty)
  obtain ⟨line, hline, -, -, hparse₁, -, -, hnewline⟩ :=
    hdecodes oddlyNamed .compact (hpossible _ _ _ hfirst)
  obtain ⟨text, htext, -, -, hparse₂, -⟩ := hdecodes emptyParsed .pretty (hpossible _ _ _ hsecond)
  refine ⟨⟨?_, ?_⟩, hpossible _ _ _ hfirst, hpossible _ _ _ hsecond, (hshown _ _).2 rfl, (hshown _ _).2 rfl,
    line, text, hline, hnewline rfl, hparse₁, htext, hparse₂⟩
  · exact ((hrun _ _ _).2 _).2 ⟨_, _, rfl, hfirst, by decide +kernel⟩
  · exact ((hrun _ _ _).2 _).2 ⟨_, _, rfl, hsecond, by decide +kernel⟩

end ScriptTree.Command
