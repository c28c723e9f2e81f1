import SentenceGrammar.Proofs.Descendants
import SentenceGrammar.Proofs.NumeralValues
import SentenceGrammar.Proofs.PreprocessSentences

/-!
# Runs of the preprocessing language

A run leaves nothing behind that a later run could see: the operations are forgotten, and the units
are defined anew. So what a script is run to depends on the script, the configuration and the
calibration at that time, and not on what was run before.
-/
namespace SentenceGrammar.Preprocess

open Registry (mapError_ok_iff)

variable {ε κ τ : Type}

/-! ### One run -/

/-- What a script is run to under a calibration. -/
def outcome (base : Registry (Rule ε) κ) (config : Config) (calibration : Calibration)
    (script : String) : Except RunError (List Operation) := do
  let registry ← (tune calibration base).mapError fun cause => .parse (.listenerFailed 0 cause)
  let root ← (Matching.parse registry config script).mapError fun failure =>
    .parse (.noMatch failure)
  (operations calibration root).mapError .eval

/-- A parser for the language at work: of its grammar, nothing but the units ever changes. -/
structure Working (base : Registry (Rule ε) κ) (config : Config) (calibration : Calibration)
    (workplace : Workplace ε κ τ) : Prop where
  units : base.containsType "units" = true
  tuned : ∀ calibration registry, tune calibration base = .ok registry → Tuned calibration registry
  retains : Retains base workplace.1.registry
  listeners : workplace.1.listeners = [followCalibration]
  config : workplace.1.config = config
  calibration : workplace.2.image.calibration = calibration

section

variable {base registry : Registry (Rule ε) κ} {config : Config} {calibration : Calibration}
  {parser : Parser (Rule ε) κ (World τ)} {world : World τ} {script : String}

theorem Working.cleared (working : Working base config calibration (parser, world)) :
    Working base config calibration (parser, clear world) := { working with }

theorem Working.tune_eq (working : Working base config calibration (parser, world)) :
    tune world.image.calibration parser.registry = tune calibration base := by
  rw [show world.image.calibration = calibration from working.calibration]
  exact working.retains.tune_eq working.units

/-- If the units can be defined, the script is read with them. -/
theorem Working.parse_tuned (working : Working base config calibration (parser, world))
    (done : tune calibration base = .ok registry) (script : String) :
    (Parser.parse script).run.run (parser, world) =
      ((Matching.parse registry config script).mapError .noMatch,
        ({ parser with registry }, world)) := by
  obtain ⟨left, run, tuned⟩ := followCalibration_run parser.registry world
  rw [working.tune_eq, done] at run tuned
  have listened : Parser.Listened parser.listeners (parser.registry, world) (registry, world) := by
    rw [show parser.listeners = _ from working.listeners]
    refine .cons ?_ (.nil _)
    rw [run, tuned registry rfl]
    rfl
  rw [Parser.parse_listened listened, show parser.config = config from working.config]

/-- If the units cannot be defined, nothing is left of the pass. -/
theorem Working.parse_failed (working : Working base config calibration (parser, world))
    {cause : GrammarError} (fails : tune calibration base = .error cause) (script : String) :
    (Parser.parse script).run.run (parser, world) =
      (.error (.listenerFailed 0 cause), (parser, world)) := by
  obtain ⟨left, run, -⟩ := followCalibration_run parser.registry world
  rw [working.tune_eq, fails] at run
  have interrupted : Parser.Interrupted parser.listeners (parser.registry, world) 0 cause
      (left, world) := by
    rw [show parser.listeners = _ from working.listeners]
    exact .here run
  rw [Parser.parse, Parser.run_bind_error (Parser.begin_interrupted interrupted)]

/-- Scripts are read with a grammar of the language. -/
theorem Working.exists_tuned {workplace : Workplace ε κ τ} {root : Node (Rule ε) κ}
    (working : Working base config calibration workplace)
    (read : ((Parser.parse script).run.run workplace).1 = .ok root) :
    ∃ registry, Tuned calibration registry ∧ Matching.parse registry config script = .ok root := by
  obtain ⟨parser, world⟩ := workplace
  cases tuning : tune calibration base with
  | error cause =>
    rw [working.parse_failed tuning] at read
    cases read
  | ok registry =>
    rw [working.parse_tuned tuning] at read
    exact ⟨registry, working.tuned calibration registry tuning, mapError_ok_iff.mp read⟩

variable [DecidableEq ε] [DecidableEq κ] (host : Host ε κ τ)

theorem run_unread {error : ParseError} {after : Workplace ε κ τ}
    (fails : (Parser.parse script).run.run (parser, clear world) = (.error error, after)) :
    (run host script).run (parser, world) = (.error (.parse error), after) := by
  unfold run
  rw [StateT.run_bind, StateT.run_modify, pure_bind, StateT.run_bind, fails]
  rfl

section

variable {root : Node (Rule ε) κ} {later : Parser (Rule ε) κ (World τ)} {between : World τ}
  {memo : Memo (World τ)}
  (read : (Parser.parse script).run.run (parser, clear world) = (.ok root, (later, between)))

include read

theorem run_failed {error : EvalError}
    (evaluated : (root.runAt (program host) []).run ⟨[], between⟩ = (.error error, memo)) :
    (run host script).run (parser, world) = (.error (.eval error), (later, memo.surroundings)) := by
  unfold run
  rw [StateT.run_bind, StateT.run_modify, pure_bind, StateT.run_bind,
    show (Parser.parse script).run.run (parser, clear world) = pure _ from read, pure_bind]
  dsimp only
  rw [StateT.run_bind, StateT.run_get, pure_bind, evaluated]
  rfl

theorem run_done {values : List Value}
    (evaluated : (root.runAt (program host) []).run ⟨[], between⟩ = (.ok values, memo)) :
    (run host script).run (parser, world) =
      (.ok memo.surroundings.image.operations, (later, clear memo.surroundings)) := by
  unfold run
  rw [StateT.run_bind, StateT.run_modify, pure_bind, StateT.run_bind,
    show (Parser.parse script).run.run (parser, clear world) = pure _ from read, pure_bind]
  dsimp only
  rw [StateT.run_bind, StateT.run_get, pure_bind, evaluated]
  rfl

end

/-- A run gives the outcome of its script, and the parser is fit for further ones. -/
theorem Working.run {workplace : Workplace ε κ τ}
    (working : Working base config calibration workplace) (script : String) :
    ((run host script).run workplace).1 = outcome base config calibration script ∧
      Working base config calibration ((run host script).run workplace).2 := by
  obtain ⟨parser, world⟩ := workplace
  unfold outcome
  cases tuning : tune calibration base with
  | error cause =>
    rw [run_unread host (working.cleared.parse_failed tuning script)]
    exact ⟨rfl, { working with }⟩
  | ok registry =>
    have retains := tune_retains working.units tuning
    have read := working.cleared.parse_tuned tuning script
    cases parsed : Matching.parse registry config script with
    | error failure =>
      rw [parsed] at read
      rw [run_unread host read]
      exact ⟨by simp [bind, Except.bind, Except.mapError, parsed], { working with retains }⟩
    | ok root =>
      rw [parsed] at read
      obtain ⟨isScript, sentences⟩ := Matching.parse_sentences parsed
      obtain ⟨memo, evaluated, stays, recorded⟩ := runAt_records host
        (working.tuned calibration registry tuning) isScript sentences (clear world)
        working.calibration
      cases result : operations calibration root with
      | error error =>
        rw [result] at evaluated
        rw [run_failed host read evaluated]
        exact ⟨by simp [bind, Except.bind, Except.mapError, parsed, result],
          { working with retains, calibration := stays }⟩
      | ok all =>
        rw [result] at evaluated
        rw [run_done host read evaluated, recorded all result]
        exact ⟨by simp [bind, Except.bind, Except.mapError, parsed, result, clear],
          { working with retains, calibration := stays }⟩

end

/-! ### Scripts without errors and with them -/

/-- Results for all elements mean a result for each of them. -/
theorem mapM_ok_iff {α β δ : Type} (f : α → Except δ β) : ∀ (list : List α) (results : List β),
    list.mapM f = .ok results ↔ List.Forall₂ (fun a b => f a = .ok b) list results := by
  intro list
  induction list with
  | nil =>
    intro results
    cases results <;> simp [pure, Except.pure]
  | cons a list ih =>
    intro results
    rw [List.mapM_cons, List.forall₂_cons_left_iff]
    constructor
    · intro done
      obtain ⟨b, first, done⟩ := exists_of_bind_ok done
      obtain ⟨others, rest, same⟩ := exists_of_bind_ok done
      exact ⟨b, others, first, (ih others).mp rest, (Except.ok.inj same).symm⟩
    · rintro ⟨b, others, first, rest, rfl⟩
      rw [first, (ih others).mpr rest]
      rfl

/-- The first element without a result is what fails. -/
theorem mapM_error_iff {α β δ : Type} (f : α → Except δ β) (error : δ) : ∀ list : List α,
    list.mapM f = .error error ↔ ∃ front a back, list = front ++ a :: back ∧
      (∀ earlier ∈ front, ∃ b, f earlier = .ok b) ∧ f a = .error error := by
  intro list
  induction list with
  | nil => simp [pure, Except.pure]
  | cons first list ih =>
    rw [List.mapM_cons]
    constructor
    · intro fails
      cases result : f first with
      | error other =>
        rw [result] at fails
        cases fails
        exact ⟨[], first, list, rfl, nofun, result⟩
      | ok b =>
        rw [result] at fails
        have rest : list.mapM f = .error error := by
          cases rest : list.mapM f with
          | error other => simpa [rest, bind, Except.bind] using fails
          | ok others => simp [rest, bind, Except.bind, pure, Except.pure] at fails
        obtain ⟨front, a, back, rfl, earlier, here⟩ := ih.mp rest
        exact ⟨first :: front, a, back, rfl, List.forall_mem_cons.mpr ⟨⟨b, result⟩, earlier⟩, here⟩
    · rintro ⟨_ | ⟨other, front⟩, a, back, same, earlier, here⟩
      · obtain ⟨rfl, rfl⟩ := List.cons.inj same
        rw [here]
        rfl
      · obtain ⟨rfl, rfl⟩ := List.cons.inj same
        obtain ⟨⟨b, result⟩, earlier⟩ := List.forall_mem_cons.mp earlier
        rw [result, ih.mpr ⟨front, a, back, rfl, earlier, here⟩]
        rfl

section

variable {base : Registry (Rule ε) κ} {config : Config} {calibration : Calibration}
  [DecidableEq ε] [DecidableEq κ] (host : Host ε κ τ) {workplace : Workplace ε κ τ}

/-- A run reads the script and then evaluates it. -/
theorem Working.run_eq (working : Working base config calibration workplace) (script : String) :
    ((Preprocess.run host script).run workplace).1 =
      (((Parser.parse script).run.run workplace).1.mapError .parse).bind fun root =>
        (operations calibration root).mapError .eval := by
  rw [(working.run host script).1, outcome]
  obtain ⟨parser, world⟩ := workplace
  cases tuning : tune calibration base with
  | error cause =>
    rw [working.parse_failed tuning]
    rfl
  | ok registry =>
    rw [working.parse_tuned tuning]
    change ((Matching.parse registry config script).mapError _).bind _ = _
    cases Matching.parse registry config script <;> rfl

/-- A run succeeds just if the script can be read and each sentence has an operation. -/
theorem Working.run_ok_iff (working : Working base config calibration workplace) (script : String)
    (recorded : List Operation) :
    ((Preprocess.run host script).run workplace).1 = .ok recorded ↔
      ∃ root, ((Parser.parse script).run.run workplace).1 = .ok root ∧
        List.Forall₂ (fun sentence op => operation calibration sentence = .ok op) root.sentences
          recorded := by
  rw [working.run_eq]
  cases ((Parser.parse script).run.run workplace).1 with
  | error error => simp [Except.mapError, Except.bind]
  | ok root =>
    simp only [Except.mapError, Except.bind, Except.ok.injEq, exists_eq_left', ← mapM_ok_iff]
    rw [operations]
    cases root.sentences.mapM (operation calibration) <;> simp

/-- A run fails while it evaluates just if the script can be read and some sentence is the first one
without an operation. -/
theorem Working.run_eval_iff (working : Working base config calibration workplace)
    (script : String) (error : EvalError) :
    ((Preprocess.run host script).run workplace).1 = .error (.eval error) ↔
      ∃ root, ((Parser.parse script).run.run workplace).1 = .ok root ∧
        ∃ front sentence back, root.sentences = front ++ sentence :: back ∧
          (∀ earlier ∈ front, ∃ op, operation calibration earlier = .ok op) ∧
          operation calibration sentence = .error error := by
  rw [working.run_eq]
  cases ((Parser.parse script).run.run workplace).1 with
  | error error => simp [Except.mapError, Except.bind]
  | ok root =>
    simp only [Except.mapError, Except.bind, Except.ok.injEq, exists_eq_left', ← mapM_error_iff]
    rw [operations]
    cases root.sentences.mapM (operation calibration) <;> simp

end

/-! ### Any number of runs -/

/-- A parser for the language can be made, and it is fit to work. -/
theorem exists_start (config : Config) :
    ∃ (start : Parser (Rule ε) κ (World τ)) (base : Registry (Rule ε) κ),
      parser config = .ok start ∧ ∀ calibration beside,
        Working base config calibration (start, ⟨{ calibration }, beside⟩) := by
  obtain ⟨base, set, units, tuned⟩ := exists_grammar (ε := ε) (κ := κ)
  refine ⟨{ registry := base, listeners := [followCalibration], config }, base, ?_, fun _ _ => ?_⟩
  · rw [parser, set]
    rfl
  · exact {
      units, tuned
      retains := ⟨units, rfl⟩
      listeners := rfl
      config := rfl
      calibration := rfl }

/-- Something that is done with a parser of the language. -/
inductive Action where
  | setCalibration (calibration : Calibration)
  | run (script : String)

/-- The calibration after some actions. -/
def calibrationAfter (first : Calibration) (actions : List Action) : Calibration :=
  actions.foldl (fun calibration action =>
    match action with
    | .setCalibration later => later
    | .run _ => calibration) first

section

variable [DecidableEq ε] [DecidableEq κ] (host : Host ε κ τ)

/-- What an action leaves, whether a run succeeds or not. -/
def Action.perform (workplace : Workplace ε κ τ) : Action → Workplace ε κ τ
  | .setCalibration calibration => Preprocess.setCalibration calibration workplace
  | .run script => ((Preprocess.run host script).run workplace).2

theorem Working.perform {base : Registry (Rule ε) κ} {config : Config} (actions : List Action) :
    ∀ {first : Calibration} {workplace : Workplace ε κ τ}, Working base config first workplace →
      Working base config (calibrationAfter first actions)
        (actions.foldl (Action.perform host) workplace) := by
  induction actions with
  | nil => exact fun working => working
  | cons action rest ih =>
    intro first workplace working
    cases action with
    | setCalibration later =>
      exact ih (show Working base config later _ from { working with calibration := rfl })
    | run script => exact ih (working.run host script).2

/-- Whatever was done with a parser before, a script is run to what a parser that was just made runs
it to under the same calibration. If it succeeds, it gives one operation for each sentence, in their
order. -/
theorem run_independent (config : Config) :
    ∃ start : Parser (Rule ε) κ (World τ), parser config = .ok start ∧
      ∀ (first : Calibration) (beside fresh : τ) (actions : List Action) (script : String),
        let before := actions.foldl (Action.perform host) (start, ⟨{ calibration := first }, beside⟩)
        let calibration := calibrationAfter first actions
        ((run host script).run before).1 =
          ((run host script).run (start, ⟨{ calibration }, fresh⟩)).1 ∧
        ∀ recorded, ((run host script).run before).1 = .ok recorded ↔
          ∃ root, ((Parser.parse script).run.run before).1 = .ok root ∧
            List.Forall₂ (fun sentence op => operation calibration sentence = .ok op)
              root.sentences recorded := by
  obtain ⟨start, base, made, working⟩ := exists_start (ε := ε) (κ := κ) (τ := τ) config
  refine ⟨start, made, fun first beside fresh actions script => ?_⟩
  have before := (working first beside).perform host actions
  have anew := working (calibrationAfter first actions) fresh
  exact ⟨(before.run host script).1.trans (anew.run host script).1.symm,
    before.run_ok_iff host script⟩

end

end SentenceGrammar.Preprocess
