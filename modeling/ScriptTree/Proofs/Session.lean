import Mathlib.Data.List.Basic
import Mathlib.Data.List.Induction
import ScriptTree.Proofs.Fallback

/-! Installing the parts of a pipeline and running it, in any order. The part installed last counts, runs leave
no trace, and a run calls just the engines it has to, from which it has its result. The calls are those of the
run itself, taken down as they are made. -/
namespace ScriptTree.Pipeline

/-- Something that is done with a pipeline. -/
inductive Step where
  | installEngine (engine : Engine)
  | installClassifier (classifier : String → Dialect)
  | run (source : String)
  | parse (source : String)

/-- A call of an engine. -/
structure Call where
  engine : Engine
  source : String
  request : Request

/-- What a step gives back. -/
inductive Answer where
  | done
  | report (report : Report)
  | result (result : Except RunError (Dialect × Ast))

/-- Takes the call of an engine down and makes it. -/
def recorded : Caller (StateM (List Call)) := fun engine source request => do
  modify (· ++ [⟨engine, source, request⟩])
  return engine.parse source request

/-- The calls that are made for a source. -/
def calls (p : Pipeline) (source : String) : List Call :=
  ((p.parseBy recorded source).run []).2

/-- The pipeline after a step. -/
def after (p : Pipeline) : Step → Pipeline
  | .installEngine engine => p.withEngine engine
  | .installClassifier classifier => p.withClassifier classifier
  | .run _ => p
  | .parse _ => p

/-- What a step gives back, and the calls that it makes. -/
def answer (p : Pipeline) : Step → Answer × List Call
  | .installEngine _ => (.done, [])
  | .installClassifier _ => (.done, [])
  | .run source =>
    let (report, calls) := (p.runBy recorded source).run []
    (.report report, calls)
  | .parse source =>
    let (result, calls) := (p.parseBy recorded source).run []
    (.result result, calls)

/-- The answers to steps that are taken one after the other. -/
def session (p : Pipeline) : List Step → List (Answer × List Call)
  | [] => []
  | step :: steps => p.answer step :: (p.after step).session steps

namespace Step

/-- The engine that a step installs for a dialect. -/
def engine? (dialect : Dialect) : Step → Option Engine
  | installEngine engine => if engine.dialect = dialect then some engine else none
  | _ => none

/-- The classifier that a step installs. -/
def classifier? : Step → Option (String → Dialect)
  | installClassifier classifier => some classifier
  | _ => none

def installs : Step → Bool
  | installEngine _ => true
  | installClassifier _ => true
  | run _ => false
  | parse _ => false

theorem engine?_eq_none {dialect : Dialect} (step : Step) (h : step.installs = false) :
    step.engine? dialect = none := by
  cases step with
  | installEngine | installClassifier => contradiction
  | run | parse => rfl

theorem classifier?_eq_none (step : Step) (h : step.installs = false) : step.classifier? = none := by
  cases step with
  | installEngine | installClassifier => contradiction
  | run | parse => rfl

end Step

/-- The engine for a dialect that the steps install last. -/
def lastEngine? (dialect : Dialect) (steps : List Step) : Option Engine :=
  (steps.filterMap (Step.engine? dialect)).getLast?

/-- The classifier that the steps install last. -/
def lastClassifier? (steps : List Step) : Option (String → Dialect) :=
  (steps.filterMap Step.classifier?).getLast?

/-- The pipeline of the options and of the parts that the steps install last. Where they install none it has the
engine at hand, and the classifier that sticks to the dialect of the options or else guesses. -/
def lastInstalled (options : Options) (typed plain : Option Engine) (steps : List Step) : Pipeline where
  options := options
  classifier := (lastClassifier? steps).getD fun source => options.dialect.getD (classify source.toList)
  typed := (lastEngine? .typed steps).or typed
  plain := (lastEngine? .plain steps).or plain

theorem lastEngine?_append (dialect : Dialect) (steps : List Step) (step : Step) :
    lastEngine? dialect (steps ++ [step]) = (step.engine? dialect).or (lastEngine? dialect steps) := by
  rw [lastEngine?, lastEngine?, List.filterMap_append, List.getLast?_append]
  cases h : step.engine? dialect <;> simp [h]

theorem lastClassifier?_append (steps : List Step) (step : Step) :
    lastClassifier? (steps ++ [step]) = step.classifier?.or (lastClassifier? steps) := by
  rw [lastClassifier?, lastClassifier?, List.filterMap_append, List.getLast?_append]
  cases h : step.classifier? <;> simp [h]

section LastInstalled

variable (options : Options) (typed plain : Option Engine)

/-- A step takes the pipeline of the parts installed last to that of the parts installed last. -/
theorem after_lastInstalled (steps : List Step) (step : Step) :
    (lastInstalled options typed plain steps).after step =
      lastInstalled options typed plain (steps ++ [step]) := by
  rw [lastInstalled, lastInstalled, lastClassifier?_append, lastEngine?_append, lastEngine?_append]
  cases step with
  | installEngine engine =>
    obtain ⟨dialect, parse⟩ := engine
    cases dialect <;> simp [after, withEngine, Step.engine?, Step.classifier?]
  | installClassifier classifier => simp [after, withClassifier, Step.engine?, Step.classifier?]
  | run source => simp [after, Step.engine?, Step.classifier?]
  | parse source => simp [after, Step.engine?, Step.classifier?]

theorem new_eq_lastInstalled : new options typed plain = lastInstalled options typed plain [] := by
  unfold new classifierFor
  cases h : options.dialect <;> simp [lastInstalled, lastEngine?, lastClassifier?, h]

/-- After any steps a pipeline has the parts that they installed last. -/
theorem foldl_after (steps : List Step) :
    steps.foldl after (new options typed plain) = lastInstalled options typed plain steps := by
  induction steps using List.reverseRecOn with
  | nil => exact new_eq_lastInstalled options typed plain
  | append_singleton steps step ih =>
    rw [List.foldl_append, ih, List.foldl_cons, List.foldl_nil, after_lastInstalled]

end LastInstalled

theorem session_append (p : Pipeline) (before behind : List Step) :
    p.session (before ++ behind) = p.session before ++ (before.foldl after p).session behind := by
  induction before generalizing p with
  | nil => rfl
  | cons step before ih => rw [List.cons_append, session, session, ih, List.foldl_cons, List.cons_append]

theorem length_session (p : Pipeline) (steps : List Step) : (p.session steps).length = steps.length := by
  induction steps generalizing p with
  | nil => rfl
  | cons step steps ih => rw [session, List.length_cons, ih, List.length_cons]

/-- In the middle of a session a step is answered by the pipeline of the steps before it. -/
theorem session_getElem? (p : Pipeline) (before behind : List Step) (step : Step) :
    (p.session (before ++ step :: behind))[before.length]? = some ((before.foldl after p).answer step) := by
  rw [session_append, session, ← length_session p before, List.getElem?_append_right (Nat.le_refl _)]
  simp

theorem filterMap_installs {α : Type} {f : Step → Option α}
    (hf : ∀ step, step.installs = false → f step = none) (steps : List Step) :
    (steps.filter Step.installs).filterMap f = steps.filterMap f := by
  rw [List.filterMap_filter]
  refine List.filterMap_congr fun step _ => ?_
  cases h : step.installs with
  | true => rfl
  | false => exact (hf step h).symm

/-- Runs leave no trace: without them the same parts are installed last. -/
theorem lastInstalled_filter (options : Options) (typed plain : Option Engine) (steps : List Step) :
    lastInstalled options typed plain (steps.filter Step.installs) =
      lastInstalled options typed plain steps := by
  have hengine (dialect : Dialect) :
      lastEngine? dialect (steps.filter Step.installs) = lastEngine? dialect steps := by
    rw [lastEngine?, filterMap_installs Step.engine?_eq_none, lastEngine?]
  have hclassifier : lastClassifier? (steps.filter Step.installs) = lastClassifier? steps := by
    rw [lastClassifier?, filterMap_installs Step.classifier?_eq_none, lastClassifier?]
  rw [lastInstalled, lastInstalled, hengine, hengine, hclassifier]

section Calls

variable (p : Pipeline) (source : String)

/-- Whether a dialect has no engine, or one that fails on the source. -/
def fails (dialect : Dialect) : Bool :=
  (p.engine? dialect).all fun engine =>
    !(engine.parse source ⟨p.shapeFor dialect, p.options.offsets⟩).isOk

/-- The call of the engine for a dialect, if there is one. -/
def callsTo (dialect : Dialect) : List Call :=
  (p.engine? dialect).toList.map fun engine =>
    ⟨engine, source, ⟨p.shapeFor dialect, p.options.offsets⟩⟩

/-- Whether the other dialect is tried for a source too. -/
def Retries : Prop :=
  p.options.strategy = .fallback ∧ p.fails source (p.classifier source) = true

instance : Decidable (p.Retries source) := instDecidableAnd

variable {p source}

theorem Accepts.fails {dialect : Dialect} {ast : Ast} (h : p.Accepts source dialect ast) :
    p.fails source dialect = false := by
  obtain ⟨engine, hengine, hparse⟩ := h
  rw [Pipeline.fails, hengine, Option.all_some, hparse]
  rfl

theorem Refuses.fails {dialect : Dialect} {error : RunError} (h : p.Refuses source dialect error) :
    p.fails source dialect = true := by
  rcases h with ⟨hengine, -⟩ | ⟨engine, failure, hengine, hparse, -⟩
  · rw [Pipeline.fails, hengine, Option.all_none]
  · rw [Pipeline.fails, hengine, Option.all_some, hparse]
    rfl

theorem Accepts.not_retries {ast : Ast} (h : p.Accepts source (p.classifier source) ast) :
    ¬p.Retries source := by
  rintro ⟨-, hfails⟩
  rw [h.fails] at hfails
  contradiction

theorem not_retries_of_heuristic (h : p.options.strategy = .heuristic) : ¬p.Retries source := by
  rintro ⟨hstrategy, -⟩
  rw [h] at hstrategy
  contradiction

theorem Refuses.retries {error : RunError} (h : p.Refuses source (p.classifier source) error)
    (hstrategy : p.options.strategy = .fallback) : p.Retries source :=
  ⟨hstrategy, h.fails⟩

/-- What comes after a first part goes on from its log. -/
theorem run_bind_of_run {α β : Type} {x : StateM (List Call) α} {log log' : List Call} {a : α}
    (h : x.run log = (a, log')) (f : α → StateM (List Call) β) : (x >>= f).run log = (f a).run log' := by
  rw [StateT.run_bind, h]
  rfl

variable (p source)

/-- A try calls the engine of its dialect, and taking that down does not change the outcome. -/
theorem attemptBy_recorded (dialect : Dialect) (log : List Call) :
    (p.attemptBy recorded source dialect).run log =
      (p.attempt source dialect, log ++ p.callsTo source dialect) := by
  rw [attempt, attemptBy, attemptBy, callsTo, request_eq]
  cases p.engine? dialect with
  | none =>
    rw [Option.toList_none, List.map_nil, List.append_nil]
    rfl
  | some engine => rfl

/-- A run calls the engine of the classified dialect, and the other one only after a failure and if the strategy is
to fall back. -/
theorem attemptsBy_recorded (log : List Call) :
    (p.attemptsBy recorded source).run log =
      (p.attempts source, log ++ (p.callsTo source (p.classifier source) ++
        if p.Retries source then p.callsTo source (p.classifier source).other else [])) := by
  have hdialect : (p.attempt source (p.classifier source)).dialect = p.classifier source := by
    rw [attempt_eq]
  rw [attemptsBy, run_bind_of_run (p.attemptBy_recorded source _ log), attempts_eq]
  cases hout : (p.attempt source (p.classifier source)).outcome with
  | ok ast =>
    rw [if_neg ((p.outcome_eq_ok_iff source).1 hout).not_retries, List.append_nil]
    rfl
  | error error =>
    cases hstrategy : p.options.strategy with
    | heuristic =>
      rw [if_neg (not_retries_of_heuristic hstrategy), List.append_nil]
      rfl
    | fallback =>
      rw [if_pos (((p.outcome_eq_error_iff source).1 hout).retries hstrategy), ← List.append_assoc]
      dsimp only
      rw [run_bind_of_run (p.attemptBy_recorded source _ _), hdialect]
      rfl

theorem parseBy_recorded (log : List Call) :
    (p.parseBy recorded source).run log =
      (p.parse source, log ++ (p.callsTo source (p.classifier source) ++
        if p.Retries source then p.callsTo source (p.classifier source).other else [])) := by
  rw [parseBy, run_bind_of_run (p.attemptsBy_recorded source log), parse_of_attempts]
  rcases p.attempts source with ⟨⟨_, _, _ | _⟩, _ | ⟨_, _, _ | _⟩⟩ <;> rfl

theorem calls_eq :
    p.calls source = p.callsTo source (p.classifier source) ++
      if p.Retries source then p.callsTo source (p.classifier source).other else [] := by
  rw [calls, parseBy_recorded, List.nil_append]

theorem answer_parse : p.answer (.parse source) = (.result (p.parse source), p.calls source) := by
  rw [calls_eq, answer, parseBy_recorded, List.nil_append]

theorem answer_run : p.answer (.run source) = (.report (p.run source), p.calls source) := by
  rw [calls_eq, answer, runBy, run_bind_of_run (p.parseBy_recorded source []), run_eq_reportOf, List.nil_append]
  rcases p.parse source with _ | ⟨_, _⟩ <;> rfl

variable {p source}

/-- Every call is one of the engine for some dialect, with the request for it. -/
theorem exists_of_mem_calls {call : Call} (h : call ∈ p.calls source) :
    ∃ dialect, p.engine? dialect = some call.engine ∧ call.source = source ∧
      call.request = ⟨p.shapeFor dialect, p.options.offsets⟩ := by
  obtain ⟨dialect, hcall⟩ : ∃ dialect, call ∈ p.callsTo source dialect := by
    rw [calls_eq] at h
    split_ifs at h
    · exact (List.mem_append.1 h).elim (⟨_, ·⟩) (⟨_, ·⟩)
    · exact ⟨_, by simpa using h⟩
  obtain ⟨engine, hengine, rfl⟩ := List.mem_map.1 hcall
  exact ⟨dialect, Option.mem_toList.1 hengine, rfl, rfl⟩

end Calls

section Runs

/-- How a try with a dialect goes: its outcome, and the calls that it takes. -/
inductive Tried (p : Pipeline) (source : String) (dialect : Dialect) : Except RunError Ast → List Call → Prop
  | missing (h : p.engine? dialect = none) : Tried p source dialect (.error (.noEngine dialect)) []
  | tree {engine : Engine} {ast : Ast} (h : p.engine? dialect = some engine)
      (hparse : engine.parse source ⟨p.shapeFor dialect, p.options.offsets⟩ = .ok ast) :
      Tried p source dialect (.ok ast) [⟨engine, source, ⟨p.shapeFor dialect, p.options.offsets⟩⟩]
  | failure {engine : Engine} {failure : Failure} (h : p.engine? dialect = some engine)
      (hparse : engine.parse source ⟨p.shapeFor dialect, p.options.offsets⟩ = .error failure) :
      Tried p source dialect (.error (.parse failure))
        [⟨engine, source, ⟨p.shapeFor dialect, p.options.offsets⟩⟩]

/-- How a run goes: its result, and the calls that it takes. The result is the tree of the classified dialect, or
that of the other one if it is tried too, or else the error of the classified dialect. -/
inductive Runs (p : Pipeline) (source : String) : Except RunError (Dialect × Ast) → List Call → Prop
  | first {ast : Ast} {calls : List Call} (h : p.Tried source (p.classifier source) (.ok ast) calls) :
      Runs p source (.ok (p.classifier source, ast)) calls
  | only {error : RunError} {calls : List Call} (hstrategy : p.options.strategy = .heuristic)
      (h : p.Tried source (p.classifier source) (.error error) calls) : Runs p source (.error error) calls
  | second {error : RunError} {ast : Ast} {calls more : List Call}
      (hstrategy : p.options.strategy = .fallback)
      (h : p.Tried source (p.classifier source) (.error error) calls)
      (hmore : p.Tried source (p.classifier source).other (.ok ast) more) :
      Runs p source (.ok ((p.classifier source).other, ast)) (calls ++ more)
  | neither {error other : RunError} {calls more : List Call}
      (hstrategy : p.options.strategy = .fallback)
      (h : p.Tried source (p.classifier source) (.error error) calls)
      (hmore : p.Tried source (p.classifier source).other (.error other) more) :
      Runs p source (.error error) (calls ++ more)

variable {p : Pipeline} {source : String} {dialect : Dialect} {calls : List Call}

theorem Tried.accepts {ast : Ast} (h : p.Tried source dialect (.ok ast) calls) :
    p.Accepts source dialect ast ∧ p.callsTo source dialect = calls := by
  cases h with
  | tree h hparse => exact ⟨⟨_, h, hparse⟩, by rw [callsTo, h]; rfl⟩

theorem Tried.refuses {error : RunError} (h : p.Tried source dialect (.error error) calls) :
    p.Refuses source dialect error ∧ p.callsTo source dialect = calls := by
  cases h with
  | missing h => exact ⟨Or.inl ⟨h, rfl⟩, by rw [callsTo, h]; rfl⟩
  | failure h hparse => exact ⟨Or.inr ⟨_, _, h, hparse, rfl⟩, by rw [callsTo, h]; rfl⟩

theorem exists_tried (p : Pipeline) (source : String) (dialect : Dialect) :
    (∃ ast calls, p.Tried source dialect (.ok ast) calls) ∨
      ∃ error calls, p.Tried source dialect (.error error) calls := by
  cases hengine : p.engine? dialect with
  | none => exact Or.inr ⟨_, _, .missing hengine⟩
  | some engine =>
    cases hparse : engine.parse source ⟨p.shapeFor dialect, p.options.offsets⟩ with
    | ok ast => exact Or.inl ⟨_, _, .tree hengine hparse⟩
    | error failure => exact Or.inr ⟨_, _, .failure hengine hparse⟩

theorem exists_runs (p : Pipeline) (source : String) : ∃ result calls, p.Runs source result calls := by
  rcases p.exists_tried source (p.classifier source) with ⟨ast, calls, h⟩ | ⟨error, calls, h⟩
  · exact ⟨_, _, .first h⟩
  · cases hstrategy : p.options.strategy with
    | heuristic => exact ⟨_, _, .only hstrategy h⟩
    | fallback =>
      rcases p.exists_tried source (p.classifier source).other with ⟨ast, more, hmore⟩ | ⟨_, more, hmore⟩
      · exact ⟨_, _, .second hstrategy h hmore⟩
      · exact ⟨_, _, .neither hstrategy h hmore⟩

theorem Runs.eq {result : Except RunError (Dialect × Ast)} (h : p.Runs source result calls) :
    p.parse source = result ∧ p.calls source = calls := by
  rw [calls_eq]
  cases h with
  | first h =>
    obtain ⟨hfirst, rfl⟩ := h.accepts
    exact ⟨parse_of_accepts hfirst, by rw [if_neg hfirst.not_retries, List.append_nil]⟩
  | only hstrategy h =>
    obtain ⟨hfirst, rfl⟩ := h.refuses
    refine ⟨parse_of_refuses hfirst hstrategy, ?_⟩
    rw [if_neg (not_retries_of_heuristic hstrategy), List.append_nil]
  | second hstrategy h hmore =>
    obtain ⟨hfirst, rfl⟩ := h.refuses
    obtain ⟨hsecond, rfl⟩ := hmore.accepts
    exact ⟨parse_of_accepts_other hfirst hsecond hstrategy, by rw [if_pos (hfirst.retries hstrategy)]⟩
  | neither hstrategy h hmore =>
    obtain ⟨hfirst, rfl⟩ := h.refuses
    obtain ⟨hsecond, rfl⟩ := hmore.refuses
    exact ⟨parse_of_refuses_other hfirst hsecond hstrategy, by rw [if_pos (hfirst.retries hstrategy)]⟩

theorem runs_iff {result : Except RunError (Dialect × Ast)} :
    p.Runs source result calls ↔ p.parse source = result ∧ p.calls source = calls := by
  constructor
  · exact Runs.eq
  · rintro ⟨rfl, rfl⟩
    obtain ⟨result, calls, h⟩ := p.exists_runs source
    obtain ⟨rfl, rfl⟩ := h.eq
    exact h

/-- A run depends on the options, on the dialect that the source is classified as, and on the engines that it
calls. -/
theorem congr_of_parts {q : Pipeline} (hoptions : q.options = p.options)
    (hclassifier : q.classifier source = p.classifier source)
    (hfirst : q.engine? (p.classifier source) = p.engine? (p.classifier source))
    (hsecond : p.Retries source →
      q.engine? (p.classifier source).other = p.engine? (p.classifier source).other) :
    q.parse source = p.parse source ∧ q.calls source = p.calls source := by
  have htried {dialect : Dialect} {outcome : Except RunError Ast} {calls : List Call}
      (hengine : q.engine? dialect = p.engine? dialect) (h : p.Tried source dialect outcome calls) :
      q.Tried source dialect outcome calls := by
    have hrequest : (⟨p.shapeFor dialect, p.options.offsets⟩ : Request) =
        ⟨q.shapeFor dialect, q.options.offsets⟩ := by
      cases dialect <;> simp [shapeFor, hoptions]
    cases h with
    | missing h => exact .missing (hengine.trans h)
    | tree h hparse =>
      rw [hrequest] at hparse ⊢
      exact .tree (hengine.trans h) hparse
    | failure h hparse =>
      rw [hrequest] at hparse ⊢
      exact .failure (hengine.trans h) hparse
  have hruns {result : Except RunError (Dialect × Ast)} {calls : List Call}
      (h : p.Runs source result calls) : q.Runs source result calls := by
    cases h with
    | first h =>
      rw [← hclassifier]
      exact .first (hclassifier ▸ htried hfirst h)
    | only hstrategy h => exact .only (hoptions ▸ hstrategy) (hclassifier ▸ htried hfirst h)
    | second hstrategy h hmore =>
      rw [← hclassifier]
      have hother := hsecond (h.refuses.1.retries hstrategy)
      exact .second (hoptions ▸ hstrategy) (hclassifier ▸ htried hfirst h) (hclassifier ▸ htried hother hmore)
    | neither hstrategy h hmore =>
      have hother := hsecond (h.refuses.1.retries hstrategy)
      exact .neither (hoptions ▸ hstrategy) (hclassifier ▸ htried hfirst h) (hclassifier ▸ htried hother hmore)
  exact (hruns (runs_iff.2 ⟨rfl, rfl⟩)).eq

end Runs

theorem engine?_lastInstalled (options : Options) (typed plain : Option Engine) (steps : List Step)
    (dialect : Dialect) :
    (lastInstalled options typed plain steps).engine? dialect =
      (lastEngine? dialect steps).or ((new options typed plain).engine? dialect) := by
  cases dialect <;> rfl

/-- A pipeline is made of what was installed last, and runs leave no trace. A run in the middle of a session
answers as the pipeline of the parts that the steps before it installed last, whichever other steps there were;
its report is that of the result; and it calls the engine of the classified dialect, then the other one only
after a failure and if the strategy is to fall back, each as installed last and with the request for its
dialect. The result is what these calls give. What was not called had no influence. -/
theorem session_last_installed (options : Options) (typed plain : Option Engine)
    (before behind : List Step) (source : String) :
    let start := new options typed plain
    let installing := before.filter Step.installs
    let p := lastInstalled options typed plain before
    (start.session (before ++ .parse source :: behind))[before.length]? =
      some (.result (p.parse source), p.calls source) ∧
    (start.session (before ++ .run source :: behind))[before.length]? =
      some (.report (reportOf (p.parse source)), p.calls source) ∧
    p.run source = reportOf (p.parse source) ∧
    (∀ result calls, p.Runs source result calls ↔ p.parse source = result ∧ p.calls source = calls) ∧
    (∀ step, (start.session (installing ++ step :: behind))[installing.length]? =
      (start.session (before ++ step :: behind))[before.length]?) ∧
    p.calls source = p.callsTo source (p.classifier source) ++
      (if p.Retries source then p.callsTo source (p.classifier source).other else []) ∧
    (∀ call ∈ p.calls source, ∃ dialect,
      (lastEngine? dialect before).or (start.engine? dialect) = some call.engine ∧
      call.source = source ∧
      call.request = ⟨if dialect = .typed then .normalized else options.plainTree, options.offsets⟩) ∧
    ∀ typed' plain' before', let q := lastInstalled options typed' plain' before'
      q.classifier source = p.classifier source →
      q.engine? (p.classifier source) = p.engine? (p.classifier source) →
      (p.Retries source → q.engine? (p.classifier source).other = p.engine? (p.classifier source).other) →
      q.parse source = p.parse source ∧ q.calls source = p.calls source := by
  intro start installing p
  have hanswer (step : Step) :
      (start.session (before ++ step :: behind))[before.length]? = some (p.answer step) := by
    rw [session_getElem?, foldl_after]
  refine ⟨?_, ?_, p.run_eq_reportOf source, fun _ _ => runs_iff, ?_, p.calls_eq source, ?_, ?_⟩
  · rw [hanswer, answer_parse]
  · rw [hanswer, answer_run, run_eq_reportOf]
  · intro step
    rw [hanswer, session_getElem?, foldl_after, lastInstalled_filter]
  · intro call hcall
    obtain ⟨dialect, hengine, hsource, hrequest⟩ := exists_of_mem_calls hcall
    rw [engine?_lastInstalled] at hengine
    refine ⟨dialect, hengine, hsource, hrequest.trans ?_⟩
    cases dialect <;> rfl
  · intro typed' plain' before' q hclassifier hfirst hsecond
    exact congr_of_parts rfl hclassifier hfirst hsecond

/-- An engine that makes the same tree of every source. -/
def constantEngine (dialect : Dialect) (tree : Json) : Engine :=
  ⟨dialect, fun _ _ => .ok (.native tree)⟩

/-- Steps that replace an engine for the typed dialect after a run with it. -/
def replacing : List Step :=
  [.installEngine (constantEngine .typed (.str "old")),
   .run "a",
   .installEngine (failing .plain "out of order"),
   .installEngine (constantEngine .typed (.str "new")),
   .installClassifier fun _ => .plain]

theorem replacing_last_installed :
    let start (strategy : Strategy) := new { strategy } none none
    let p := lastInstalled { strategy := .fallback } none none replacing
    let q := lastInstalled { strategy := .fallback } none none (replacing.drop 2)
    let first : Call := ⟨failing .plain "out of order", "a", ⟨.native, .utf16⟩⟩
    let second : Call := ⟨constantEngine .typed (.str "new"), "a", ⟨.normalized, .utf16⟩⟩
    (((start .fallback).session (replacing ++ [.parse "a"]))[5]? =
        some (.result (.ok (.typed, .native (.str "new"))), [first, second]) ∧
      p.Runs "a" (.ok (.typed, .native (.str "new"))) [first, second]) ∧
    ((start .fallback).session (replacing ++ [.run "a"]))[5]? =
      some (.report (.parsed .typed (.native (.str "new"))), [first, second]) ∧
    p.run "a" = .parsed .typed (.native (.str "new")) ∧
    ((start .heuristic).session (replacing ++ [.run "a"]))[5]? =
      some (.report (.failed "parse error: out of order"), [first]) ∧
    (q.classifier "a" = p.classifier "a" ∧ q.engine? .plain = p.engine? .plain ∧
      q.engine? .typed = p.engine? .typed) ∧
    q.parse "a" = p.parse "a" ∧ q.calls "a" = p.calls "a" := by
  intro start p q first second
  obtain ⟨hparse, hrun, himage, hruns, -, -, -, hsame⟩ :=
    session_last_installed { strategy := .fallback } none none replacing [] "a"
  obtain ⟨-, halone, -⟩ := session_last_installed { strategy := .heuristic } none none replacing [] "a"
  refine ⟨⟨hparse, (hruns _ _).2 ⟨by rfl, by rfl⟩⟩, hrun, himage, halone, ⟨rfl, rfl, rfl⟩, ?_⟩
  exact hsame none none (replacing.drop 2) rfl rfl fun _ => rfl

end ScriptTree.Pipeline
