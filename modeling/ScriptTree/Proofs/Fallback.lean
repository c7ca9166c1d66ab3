import ScriptTree.Pipeline

/-! Falling back to the other dialect only adds trees: it changes no tree and no error that the classified
dialect gives, and it fails only if no engine accepts the source. -/
namespace ScriptTree.Pipeline

def withStrategy (p : Pipeline) (strategy : Strategy) : Pipeline :=
  { p with options := { p.options with strategy } }

/-- The shape that trees of a dialect are asked for in. -/
def shapeFor (p : Pipeline) : Dialect → Shape
  | .typed => .normalized
  | .plain => p.options.plainTree

/-- Whether there is an engine for a dialect and it makes a tree of the source. -/
def Accepts (p : Pipeline) (source : String) (dialect : Dialect) (ast : Ast) : Prop :=
  ∃ engine, p.engine? dialect = some engine ∧
    engine.parse source ⟨p.shapeFor dialect, p.options.offsets⟩ = .ok ast

/-- Whether there is no engine for a dialect, or it fails on the source, and the error says so. -/
def Refuses (p : Pipeline) (source : String) (dialect : Dialect) (error : RunError) : Prop :=
  p.engine? dialect = none ∧ error = .noEngine dialect ∨
  ∃ engine failure, p.engine? dialect = some engine ∧
    engine.parse source ⟨p.shapeFor dialect, p.options.offsets⟩ = .error failure ∧
    error = .parse failure

section Attempts

variable (p : Pipeline) (source : String)

theorem request_eq (dialect : Dialect) :
    p.request dialect = ⟨p.shapeFor dialect, p.options.offsets⟩ := by
  cases dialect <;> rfl

theorem attempt_eq (dialect : Dialect) :
    p.attempt source dialect = ⟨dialect, ⟨p.shapeFor dialect, p.options.offsets⟩,
      match p.engine? dialect with
      | none => .error (.noEngine dialect)
      | some engine =>
        match engine.parse source ⟨p.shapeFor dialect, p.options.offsets⟩ with
        | .ok ast => .ok ast
        | .error failure => .error (.parse failure)⟩ := by
  rw [attempt, attemptBy, request_eq]
  cases p.engine? dialect with
  | none => rfl
  | some engine =>
    dsimp only [Engine.call]
    cases engine.parse source ⟨p.shapeFor dialect, p.options.offsets⟩ <;> rfl

theorem outcome_eq_ok_iff {dialect : Dialect} {ast : Ast} :
    (p.attempt source dialect).outcome = .ok ast ↔ p.Accepts source dialect ast := by
  rw [attempt_eq, Accepts]
  cases p.engine? dialect with
  | none => simp
  | some engine =>
    simp only [Option.some.injEq, exists_eq_left']
    cases engine.parse source ⟨p.shapeFor dialect, p.options.offsets⟩ <;> simp

theorem outcome_eq_error_iff {dialect : Dialect} {error : RunError} :
    (p.attempt source dialect).outcome = .error error ↔ p.Refuses source dialect error := by
  rw [attempt_eq, Refuses]
  cases p.engine? dialect with
  | none => simp [eq_comm]
  | some engine =>
    simp only [Option.some.injEq, exists_and_left, exists_eq_left', reduceCtorEq, false_and, false_or]
    cases engine.parse source ⟨p.shapeFor dialect, p.options.offsets⟩ <;> simp [eq_comm]

theorem attempts_eq :
    p.attempts source =
      match (p.attempt source (p.classifier source)).outcome, p.options.strategy with
      | .error _, .fallback =>
        (p.attempt source (p.classifier source), some (p.attempt source (p.classifier source).other))
      | _, _ => (p.attempt source (p.classifier source), none) := by
  have h : p.attempts source =
      match (p.attempt source (p.classifier source)).outcome, p.options.strategy with
      | .error _, .fallback => (p.attempt source (p.classifier source),
          some (p.attempt source (p.attempt source (p.classifier source)).dialect.other))
      | _, _ => (p.attempt source (p.classifier source), none) := rfl
  have hdialect : (p.attempt source (p.classifier source)).dialect = p.classifier source := by
    rw [attempt_eq]
  rwa [hdialect] at h

theorem parse_of_attempts :
    p.parse source = match p.attempts source with
      | ({ dialect, outcome := .ok ast, .. }, _) => .ok (dialect, ast)
      | ({ outcome := .error _, .. }, some { dialect, outcome := .ok ast, .. }) => .ok (dialect, ast)
      | ({ outcome := .error error, .. }, _) => .error error := rfl

theorem attempt_of_outcome {dialect : Dialect} {outcome : Except RunError Ast}
    (h : (p.attempt source dialect).outcome = outcome) :
    p.attempt source dialect = ⟨dialect, p.request dialect, outcome⟩ := by
  subst h
  rw [attempt_eq, request_eq]

theorem accepts_or_refuses (dialect : Dialect) :
    (∃ ast, p.Accepts source dialect ast) ∨ ∃ error, p.Refuses source dialect error := by
  cases h : (p.attempt source dialect).outcome with
  | ok ast => exact Or.inl ⟨ast, (p.outcome_eq_ok_iff source).1 h⟩
  | error error => exact Or.inr ⟨error, (p.outcome_eq_error_iff source).1 h⟩

variable {p source}

theorem Accepts.unique {dialect : Dialect} {ast other : Ast} (h : p.Accepts source dialect ast)
    (hother : p.Accepts source dialect other) : ast = other := by
  rw [← outcome_eq_ok_iff] at h hother
  rw [h] at hother
  exact Except.ok.inj hother

theorem Refuses.unique {dialect : Dialect} {error other : RunError} (h : p.Refuses source dialect error)
    (hother : p.Refuses source dialect other) : error = other := by
  rw [← outcome_eq_error_iff] at h hother
  rw [h] at hother
  exact Except.error.inj hother

theorem Refuses.not_accepts {dialect : Dialect} {error : RunError} (h : p.Refuses source dialect error)
    (ast : Ast) : ¬p.Accepts source dialect ast := by
  rw [← outcome_eq_error_iff] at h
  rw [← outcome_eq_ok_iff, h]
  nofun

end Attempts

section Parse

variable {p : Pipeline} {source : String}

theorem parse_of_accepts {ast : Ast} (h : p.Accepts source (p.classifier source) ast) :
    p.parse source = .ok (p.classifier source, ast) := by
  have hfirst := p.attempt_of_outcome source ((p.outcome_eq_ok_iff source).2 h)
  rw [parse_of_attempts, attempts_eq, hfirst]

theorem parse_of_refuses {error : RunError} (h : p.Refuses source (p.classifier source) error)
    (hstrategy : p.options.strategy = .heuristic) : p.parse source = .error error := by
  have hfirst := p.attempt_of_outcome source ((p.outcome_eq_error_iff source).2 h)
  rw [parse_of_attempts, attempts_eq, hfirst, hstrategy]

theorem parse_of_accepts_other {error : RunError} {ast : Ast}
    (h : p.Refuses source (p.classifier source) error)
    (hother : p.Accepts source (p.classifier source).other ast)
    (hstrategy : p.options.strategy = .fallback) :
    p.parse source = .ok ((p.classifier source).other, ast) := by
  have hfirst := p.attempt_of_outcome source ((p.outcome_eq_error_iff source).2 h)
  have hsecond := p.attempt_of_outcome source ((p.outcome_eq_ok_iff source).2 hother)
  rw [parse_of_attempts, attempts_eq, hfirst, hstrategy, hsecond]

theorem parse_of_refuses_other {error second : RunError}
    (h : p.Refuses source (p.classifier source) error)
    (hother : p.Refuses source (p.classifier source).other second)
    (hstrategy : p.options.strategy = .fallback) : p.parse source = .error error := by
  have hfirst := p.attempt_of_outcome source ((p.outcome_eq_error_iff source).2 h)
  have hsecond := p.attempt_of_outcome source ((p.outcome_eq_error_iff source).2 hother)
  rw [parse_of_attempts, attempts_eq, hfirst, hstrategy, hsecond]

variable (p source)

/-- All that a run can do. Either the classified dialect gives a tree, whatever the strategy; or it gives an
error, and only the fallback goes on to the other dialect. -/
theorem parse_cases :
    (∃ ast, p.Accepts source (p.classifier source) ast ∧
      ∀ strategy, (p.withStrategy strategy).parse source = .ok (p.classifier source, ast)) ∨
    ∃ error, p.Refuses source (p.classifier source) error ∧
      (p.withStrategy .heuristic).parse source = .error error ∧
      ((∃ ast, p.Accepts source (p.classifier source).other ast ∧
        (p.withStrategy .fallback).parse source = .ok ((p.classifier source).other, ast)) ∨
      (∃ second, p.Refuses source (p.classifier source).other second) ∧
        (p.withStrategy .fallback).parse source = .error error) := by
  rcases p.accepts_or_refuses source (p.classifier source) with ⟨ast, hfirst⟩ | ⟨error, hfirst⟩
  · exact Or.inl ⟨ast, hfirst, fun strategy => parse_of_accepts (p := p.withStrategy strategy) hfirst⟩
  · refine Or.inr ⟨error, hfirst, parse_of_refuses (p := p.withStrategy .heuristic) hfirst rfl, ?_⟩
    rcases p.accepts_or_refuses source (p.classifier source).other with ⟨ast, hsecond⟩ | ⟨second, hsecond⟩
    · exact Or.inl ⟨ast, hsecond,
        parse_of_accepts_other (p := p.withStrategy .fallback) hfirst hsecond rfl⟩
    · exact Or.inr ⟨⟨second, hsecond⟩,
        parse_of_refuses_other (p := p.withStrategy .fallback) hfirst hsecond rfl⟩

theorem eq_classifier_or_other (dialect : Dialect) :
    dialect = p.classifier source ∨ dialect = (p.classifier source).other := by
  cases dialect <;> cases p.classifier source <;> simp [Dialect.other]

variable {p source}

theorem parse_heuristic_eq_ok_iff {dialect : Dialect} {ast : Ast} :
    (p.withStrategy .heuristic).parse source = .ok (dialect, ast) ↔
      dialect = p.classifier source ∧ p.Accepts source dialect ast := by
  rcases p.parse_cases source with ⟨first, hfirst, hparse⟩ | ⟨error, hfirst, hparse, -⟩
  · rw [hparse]
    constructor
    · rintro ⟨⟩
      exact ⟨rfl, hfirst⟩
    · rintro ⟨rfl, h⟩
      rw [h.unique hfirst]
  · rw [hparse]
    refine iff_of_false nofun ?_
    rintro ⟨rfl, h⟩
    exact hfirst.not_accepts ast h

theorem parse_heuristic_eq_error_iff {error : RunError} :
    (p.withStrategy .heuristic).parse source = .error error ↔
      p.Refuses source (p.classifier source) error := by
  rcases p.parse_cases source with ⟨first, hfirst, hparse⟩ | ⟨first, hfirst, hparse, -⟩
  · rw [hparse]
    exact iff_of_false nofun fun h => h.not_accepts first hfirst
  · rw [hparse]
    constructor
    · rintro ⟨⟩
      exact hfirst
    · intro h
      rw [h.unique hfirst]

/-- The fallback gives the tree of the classified dialect, or that of the other if there is none. -/
theorem parse_fallback_eq_ok_iff {dialect : Dialect} {ast : Ast} :
    (p.withStrategy .fallback).parse source = .ok (dialect, ast) ↔
      p.Accepts source dialect ast ∧
        (dialect = p.classifier source ∨ ∀ first, ¬p.Accepts source (p.classifier source) first) := by
  rcases p.parse_cases source with
    ⟨first, hfirst, hparse⟩ | ⟨error, hfirst, -, ⟨second, hsecond, hparse⟩ | ⟨⟨_, hsecond⟩, hparse⟩⟩
  · rw [hparse]
    constructor
    · rintro ⟨⟩
      exact ⟨hfirst, Or.inl rfl⟩
    · rintro ⟨h, rfl | hnone⟩
      · rw [h.unique hfirst]
      · exact absurd hfirst (hnone first)
  · rw [hparse]
    constructor
    · rintro ⟨⟩
      exact ⟨hsecond, Or.inr hfirst.not_accepts⟩
    · rintro ⟨h, -⟩
      rcases p.eq_classifier_or_other source dialect with rfl | rfl
      · exact absurd h (hfirst.not_accepts ast)
      · rw [h.unique hsecond]
  · rw [hparse]
    refine iff_of_false nofun ?_
    rintro ⟨h, -⟩
    rcases p.eq_classifier_or_other source dialect with rfl | rfl
    · exact hfirst.not_accepts ast h
    · exact hsecond.not_accepts ast h

/-- The fallback fails if no engine accepts the source, and then with the error of the classified dialect. -/
theorem parse_fallback_eq_error_iff {error : RunError} :
    (p.withStrategy .fallback).parse source = .error error ↔
      p.Refuses source (p.classifier source) error ∧ ∀ dialect ast, ¬p.Accepts source dialect ast := by
  rcases p.parse_cases source with
    ⟨first, hfirst, hparse⟩ | ⟨first, hfirst, -, ⟨second, hsecond, hparse⟩ | ⟨⟨_, hsecond⟩, hparse⟩⟩
  · rw [hparse]
    exact iff_of_false nofun fun h => h.2 _ _ hfirst
  · rw [hparse]
    exact iff_of_false nofun fun h => h.2 _ _ hsecond
  · rw [hparse]
    constructor
    · rintro ⟨⟩
      refine ⟨hfirst, fun dialect => ?_⟩
      rcases p.eq_classifier_or_other source dialect with rfl | rfl
      · exact hfirst.not_accepts
      · exact hsecond.not_accepts
    · rintro ⟨h, -⟩
      rw [h.unique hfirst]

theorem accepts_of_parse {strategy : Strategy} {dialect : Dialect} {ast : Ast}
    (h : (p.withStrategy strategy).parse source = .ok (dialect, ast)) :
    p.Accepts source dialect ast := by
  cases strategy with
  | heuristic => exact (parse_heuristic_eq_ok_iff.1 h).2
  | fallback => exact (parse_fallback_eq_ok_iff.1 h).1

end Parse

section Run

variable {p : Pipeline} {source : String}

/-- The report of a result. -/
def reportOf : Except RunError (Dialect × Ast) → Report
  | .ok (dialect, ast) => .parsed dialect ast
  | .error error => .failed error.message

theorem run_eq_reportOf (p : Pipeline) (source : String) : p.run source = reportOf (p.parse source) := by
  have h : p.run source = match p.parse source with
      | .ok (dialect, ast) => .parsed dialect ast
      | .error error => .failed error.message := rfl
  rw [h]
  rcases p.parse source with error | ⟨dialect, ast⟩ <;> rfl

theorem run_eq_parsed_iff {dialect : Dialect} {ast : Ast} :
    p.run source = .parsed dialect ast ↔ p.parse source = .ok (dialect, ast) := by
  rw [run_eq_reportOf]
  rcases p.parse source with error | ⟨d, a⟩ <;> simp [reportOf]

theorem run_eq_failed_iff {message : String} :
    p.run source = .failed message ↔ ∃ error, p.parse source = .error error ∧ error.message = message := by
  rw [run_eq_reportOf]
  rcases p.parse source with error | ⟨d, a⟩ <;> simp [reportOf]

theorem run_heuristic_eq_parsed_iff {dialect : Dialect} {ast : Ast} :
    (p.withStrategy .heuristic).run source = .parsed dialect ast ↔
      dialect = p.classifier source ∧ p.Accepts source dialect ast :=
  run_eq_parsed_iff.trans parse_heuristic_eq_ok_iff

theorem run_fallback_eq_parsed_iff {dialect : Dialect} {ast : Ast} :
    (p.withStrategy .fallback).run source = .parsed dialect ast ↔
      p.Accepts source dialect ast ∧
        (dialect = p.classifier source ∨ ∀ first, ¬p.Accepts source (p.classifier source) first) :=
  run_eq_parsed_iff.trans parse_fallback_eq_ok_iff

/-- Whether there is a tree is not a matter of the classifier. -/
theorem exists_run_fallback_iff :
    (∃ dialect ast, (p.withStrategy .fallback).run source = .parsed dialect ast) ↔
      ∃ dialect ast, p.Accepts source dialect ast := by
  simp only [run_fallback_eq_parsed_iff]
  constructor
  · rintro ⟨dialect, ast, h, -⟩
    exact ⟨dialect, ast, h⟩
  · rintro ⟨dialect, ast, h⟩
    by_cases hfirst : ∃ first, p.Accepts source (p.classifier source) first
    · obtain ⟨first, hfirst⟩ := hfirst
      exact ⟨_, first, hfirst, Or.inl rfl⟩
    · exact ⟨dialect, ast, h, Or.inr (not_exists.1 hfirst)⟩

theorem exists_failed_iff :
    (∃ message, p.run source = .failed message) ↔ ¬∃ dialect ast, p.run source = .parsed dialect ast := by
  cases p.run source <;> simp

end Run

section OnlyAdds

variable (p : Pipeline) (source : String)

/-- Falling back only adds trees. A tree that the classifier alone gives stays, and so does the error when
there is none, which is that of the classified dialect; there is a tree exactly if some engine accepts the
source, whatever the classifier says; and it is always reported for the dialect whose engine made it, as that
dialect is asked for it. All this holds of results and of reports. -/
theorem fallback_only_adds :
    (∀ dialect ast, (p.withStrategy .heuristic).parse source = .ok (dialect, ast) →
      (p.withStrategy .fallback).parse source = .ok (dialect, ast)) ∧
    (∀ dialect ast, (p.withStrategy .heuristic).run source = .parsed dialect ast →
      (p.withStrategy .fallback).run source = .parsed dialect ast) ∧
    (∀ error, (p.withStrategy .fallback).parse source = .error error →
      (p.withStrategy .heuristic).parse source = .error error ∧
      p.Refuses source (p.classifier source) error) ∧
    (∀ message, (p.withStrategy .fallback).run source = .failed message →
      (p.withStrategy .heuristic).run source = .failed message ∧
      ∃ error, p.Refuses source (p.classifier source) error ∧ error.message = message) ∧
    ((∃ dialect ast, (p.withStrategy .fallback).parse source = .ok (dialect, ast)) ↔
      ∃ dialect ast, p.Accepts source dialect ast) ∧
    ((∃ dialect ast, (p.withStrategy .fallback).run source = .parsed dialect ast) ↔
      ∃ dialect ast, p.Accepts source dialect ast) ∧
    (∀ classifier,
      (∃ message, ((p.withClassifier classifier).withStrategy .fallback).run source = .failed message) ↔
        ∃ message, (p.withStrategy .fallback).run source = .failed message) ∧
    (∀ strategy dialect ast, (p.withStrategy strategy).parse source = .ok (dialect, ast) →
      p.Accepts source dialect ast) ∧
    (∀ dialect ast, (p.withStrategy .heuristic).run source = .parsed dialect ast ↔
      dialect = p.classifier source ∧ p.Accepts source dialect ast) ∧
    ∀ dialect ast, (p.withStrategy .fallback).run source = .parsed dialect ast ↔
      p.Accepts source dialect ast ∧
        (dialect = p.classifier source ∨ ∀ first, ¬p.Accepts source (p.classifier source) first) := by
  have hkeeps {dialect : Dialect} {ast : Ast}
      (h : (p.withStrategy .heuristic).parse source = .ok (dialect, ast)) :
      (p.withStrategy .fallback).parse source = .ok (dialect, ast) := by
    obtain ⟨hdialect, haccepts⟩ := parse_heuristic_eq_ok_iff.1 h
    exact parse_fallback_eq_ok_iff.2 ⟨haccepts, Or.inl hdialect⟩
  have herror {error : RunError} (h : (p.withStrategy .fallback).parse source = .error error) :
      (p.withStrategy .heuristic).parse source = .error error ∧
        p.Refuses source (p.classifier source) error := by
    obtain ⟨hrefuses, -⟩ := parse_fallback_eq_error_iff.1 h
    exact ⟨parse_heuristic_eq_error_iff.2 hrefuses, hrefuses⟩
  refine ⟨fun _ _ => hkeeps, ?_, fun _ => herror, ?_, ?_, exists_run_fallback_iff, ?_,
    fun _ _ _ => accepts_of_parse, fun _ _ => run_heuristic_eq_parsed_iff,
    fun _ _ => run_fallback_eq_parsed_iff⟩
  · intro dialect ast h
    exact run_eq_parsed_iff.2 (hkeeps (run_eq_parsed_iff.1 h))
  · intro message h
    obtain ⟨error, hparse, hmessage⟩ := run_eq_failed_iff.1 h
    obtain ⟨hheuristic, hrefuses⟩ := herror hparse
    exact ⟨run_eq_failed_iff.2 ⟨error, hheuristic, hmessage⟩, error, hrefuses, hmessage⟩
  · simp only [← run_eq_parsed_iff, exists_run_fallback_iff]
  · intro classifier
    rw [exists_failed_iff, exists_failed_iff, exists_run_fallback_iff, exists_run_fallback_iff]
    rfl

/-- An engine that answers every source with the shape and the unit that it is asked for. -/
def answering (dialect : Dialect) : Engine where
  dialect := dialect
  parse _ request := .ok (.native (.arr [.str request.shape.name, .str request.offsets.name]))

/-- An engine that fails on every source. -/
def failing (dialect : Dialect) (message : String) : Engine where
  dialect := dialect
  parse _ _ := .error (.engine message)

/-- A pipeline that takes every source for one of the typed dialect. -/
def takingForTyped (typed plain : Option Engine) : Pipeline where
  options := { offsets := .utf8 }
  classifier _ := .typed
  typed := typed
  plain := plain

theorem takingForTyped_fallback_only_adds :
    let both := takingForTyped (some (answering .typed)) (some (answering .plain))
    let absent := takingForTyped none (some (answering .plain))
    let broken := takingForTyped (some (failing .typed "worn out")) (some (failing .plain "out of service"))
    let tree (shape : String) := Ast.native (.arr [.str shape, .str "utf8"])
    ((both.withStrategy .heuristic).run "a" = .parsed .typed (tree "normalized") ∧
      (both.withStrategy .fallback).run "a" = .parsed .typed (tree "normalized")) ∧
    ((absent.withStrategy .heuristic).run "a" = .failed "no engine available for typescript" ∧
      (absent.withStrategy .fallback).run "a" = .parsed .plain (tree "native") ∧
      absent.Accepts "a" .plain (tree "native")) ∧
    (broken.withStrategy .fallback).run "a" = .failed "parse error: worn out" ∧
    (broken.withStrategy .heuristic).run "a" = .failed "parse error: worn out" ∧
    ∃ error, broken.Refuses "a" .typed error ∧ error.message = "parse error: worn out" := by
  intro both absent broken tree
  obtain ⟨-, hkeeps, -⟩ := fallback_only_adds both "a"
  obtain ⟨-, -, -, -, -, -, -, -, -, hmade⟩ := fallback_only_adds absent "a"
  obtain ⟨-, -, -, hbroken, -⟩ := fallback_only_adds broken "a"
  have hboth : (both.withStrategy .heuristic).run "a" = .parsed .typed (tree "normalized") := by rfl
  have habsent : (absent.withStrategy .fallback).run "a" = .parsed .plain (tree "native") := by rfl
  have hfailed : (broken.withStrategy .fallback).run "a" = .failed "parse error: worn out" := by rfl
  refine ⟨⟨hboth, hkeeps _ _ hboth⟩, ⟨by rfl, habsent, ((hmade _ _).1 habsent).1⟩, hfailed, ?_⟩
  exact hbroken _ hfailed

end OnlyAdds

end ScriptTree.Pipeline
