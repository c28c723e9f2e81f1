import Mathlib.Data.List.Basic
import Mathlib.Data.List.Forall2
import SentenceGrammar.Proofs.SteadyEvaluation
import SentenceGrammar.Proofs.Variables
import SentenceGrammar.Proofs.WatchedEvaluation

/-!
# Memoized evaluation

A session of queries evaluates one tree, and each query goes on with what the ones before it left.

## Main result

`queries_memoized`: over any session no evaluator is called twice for one node, what a node answered
first it answers ever after, nothing is evaluated that nobody asked for, and without effects every
answer is that of a plain recursion.
-/
namespace SentenceGrammar.Node

variable {ε κ σ : Type}

/-! ### Queries -/

/-- The plan has a part wherever the tree has one, and nowhere else. -/
def Fits (root : Node ε κ) (plan : Plan σ) : Prop :=
  ∀ path, (plan.at? path).isSome = (root.at? path).isSome

theorem fits_afresh (program : ε → Node ε κ → Program σ) (root : Node ε κ) :
    Fits root (root.afresh program) := by
  intro path
  rw [afresh_at?, Option.isSome_map]

theorem fits_plan [DecidableEq ε] [DecidableEq κ] (program : ε → Node ε κ → Program σ)
    (root : Node ε κ) : Fits root (root.plan program) := by
  intro path
  rw [plan_at?, ← root.spotAt?_node path, Option.isSome_map, Option.isSome_map]

/-- A question about the tree. -/
inductive Query where
  | value (path : Path)
  | evaluate (path : Path) (name : String)
  | evaluateAs (path : Path) (name : String) (wanted : ValueType)
  | run (path : Path)

/-- A single value is a list of one. -/
abbrev Answer := Except EvalError (List Value)

def Answer.single (outcome : Outcome) : Answer := outcome.map fun value => [value]

/-- A value at a wanted type, as the value of a variable. -/
def coerced (name : String) (wanted : ValueType) : Outcome → Outcome
  | .error error => .error error
  | .ok value => (value.coerce wanted).mapError (.typeMismatch name)

/-- What a query comes down to: an answer that needs no value, the value at a path, or the values of
the sentences of a script. -/
inductive Demand where
  | given (answer : Answer)
  | value (path : Path) (convert : Outcome → Answer)
  | script (path : Path)

namespace Demand

/-- The value of a variable. -/
def ofVariable (root : Node ε κ) (path : Path) (name : String) (convert : Outcome → Answer) :
    Demand :=
  match root.at? path with
  | none => .given (convert (.error (.failed "no such part")))
  | some node =>
    match node.find? name with
    | some (below, _) => .value (path ++ below) convert
    | none => .given (convert (.error (.unknownVariable name node.text node.span)))

def askBy (plan : Plan σ) (program : ε → Node ε κ → Program σ) (root : Node ε κ) :
    Demand → Evaluation σ Answer
  | given answer => return answer
  | value path convert => return convert (← valueBy plan path)
  | script path => runBy plan program root path

variable [DecidableEq ε] [DecidableEq κ]

/-- The node whose value is demanded, or whose sentences. -/
def target? (root : Node ε κ) : Demand → Option (Spot ε κ)
  | given _ => none
  | value path _ | script path => root.spotAt? path

/-- The answer as far as it is kept. -/
def recollect (root : Node ε κ) (memo : Memo σ) : Demand → Option Answer
  | given answer => some answer
  | value path convert =>
    match root.spotAt? path with
    | some spot => (memo.kept? spot.cell).map convert
    | none => some (convert (.error (.failed "no such part")))
  | script path => do
    let spot ← root.spotAt? path
    recallAll root memo spot spot.node.units

end Demand

namespace Query

def demand (root : Node ε κ) : Query → Demand
  | value path => .value path .single
  | evaluate path name => .ofVariable root path name .single
  | evaluateAs path name wanted => .ofVariable root path name fun outcome =>
    .single (coerced name wanted outcome)
  | run path =>
    match (root.at? path).map Node.kind with
    | some .script => .script path
    | _ => .value path .single

/-- The answer by a plan of the tree. -/
def askBy (plan : Plan σ) (program : ε → Node ε κ → Program σ) (root : Node ε κ) :
    Query → Evaluation σ Answer
  | value path => return .single (← valueBy plan path)
  | evaluate path name => return .single (← evaluateBy plan root path name)
  | evaluateAs path name wanted => return .single (← evaluateAsBy plan root path name wanted)
  | run path => runBy plan program root path

/-- The answer, for which values are kept. -/
def ask [DecidableEq ε] [DecidableEq κ] (program : ε → Node ε κ → Program σ) (root : Node ε κ) :
    Query → Evaluation σ Answer
  | value path => return .single (← root.valueAt program path)
  | evaluate path name => return .single (← root.evaluateAt program path name)
  | evaluateAs path name wanted => return .single (← root.evaluateAsAt program path name wanted)
  | run path => root.runAt program path

theorem ask_eq [DecidableEq ε] [DecidableEq κ] (program : ε → Node ε κ → Program σ)
    (root : Node ε κ) (query : Query) :
    query.ask program root = query.askBy (root.plan program) program root := by
  cases query <;> rfl

theorem ofVariable_askBy (plan : Plan σ) (program : ε → Node ε κ → Program σ) (root : Node ε κ)
    (path : Path) (name : String) (convert : Outcome → Answer) :
    (Demand.ofVariable root path name convert).askBy plan program root =
      (do return convert (← evaluateBy plan root path name)) := by
  unfold Demand.ofVariable evaluateBy
  cases root.at? path with
  | none => rfl
  | some node =>
    cases found : node.find? name with
    | none => simp only [found]; rfl
    | some below => simp only [found]; rfl

theorem evaluateAsBy_eq (plan : Plan σ) (root : Node ε κ) (path : Path) (name : String)
    (wanted : ValueType) : evaluateAsBy plan root path name wanted =
      (do return coerced name wanted (← evaluateBy plan root path name)) := by
  unfold evaluateAsBy
  congr 1
  funext outcome
  cases outcome with
  | error error => rfl
  | ok value =>
    simp only [coerced]
    cases value.coerce wanted with
    | ok value => rfl
    | error mismatch => rfl

theorem askBy_eq (plan : Plan σ) (program : ε → Node ε κ → Program σ) (root : Node ε κ)
    (fits : Fits root plan) (query : Query) :
    query.askBy plan program root = (query.demand root).askBy plan program root := by
  cases query with
  | value path => rfl
  | evaluate path name => rw [demand, ofVariable_askBy, askBy]
  | evaluateAs path name wanted =>
    rw [demand, ofVariable_askBy, askBy, evaluateAsBy_eq, bind_assoc]
    rfl
  | run path =>
    have fits := fits path
    rw [demand, askBy, runBy]
    cases found : root.at? path with
    | none =>
      rw [found, Option.isSome_none, Option.isSome_eq_false_iff, Option.isNone_iff_eq_none] at fits
      simp only [Option.map_none, Demand.askBy, valueBy, fits]
      rfl
    | some node =>
      rw [found, Option.isSome_some, Option.isSome_iff_exists] at fits
      obtain ⟨part, fits⟩ := fits
      cases kind : node.kind with
      | script => simp only [Option.map_some, kind, Demand.askBy, runBy, found, fits]
      | alternative | repetition | literal | builtin | run | gap =>
        simp only [Option.map_some, kind, Demand.askBy, valueBy, fits]
        rfl

end Query

/-- The values of the sentences from the value of their script. -/
def Answer.ofScript : Outcome → Answer
  | .error error => .error error
  | .ok value => .ok (value.asList?.getD [])

section

variable [DecidableEq ε] [DecidableEq κ] {program : ε → Node ε κ → Program σ} {root : Node ε κ}
  {query : Query}

theorem valueBy_plan {path : Path} {spot : Spot ε κ} (found : root.spotAt? path = some spot) :
    valueBy (root.plan program) path = spot.value root.sharedParts program := by
  rw [valueBy, plan_at?, found]
  rfl

theorem valueBy_afresh {path : Path} {spot : Spot ε κ} (found : root.spotAt? path = some spot) :
    valueBy (root.afresh program) path = (spot.node.afresh program).value := by
  rw [valueBy, afresh_at?, ← root.spotAt?_node path, found]
  rfl

theorem valueBy_lost {plan : Plan σ} {path : Path} (fits : Fits root plan)
    (lost : root.spotAt? path = none) :
    valueBy plan path = pure (.error (.failed "no such part")) := by
  have fits := fits path
  rw [← root.spotAt?_node path, lost, Option.map_none, Option.isSome_none,
    Option.isSome_eq_false_iff, Option.isNone_iff_eq_none] at fits
  rw [valueBy, fits]

theorem runBy_plan {path : Path} {spot : Spot ε κ} (found : root.spotAt? path = some spot)
    (script : spot.node.kind = .script) : runBy (root.plan program) program root path =
      (do return Answer.ofScript (← spot.compute root.sharedParts program)) := by
  have node := root.spotAt?_node path
  rw [found, Option.map_some] at node
  simp only [runBy, ← node, plan_at?, found, Option.map_some, script, Spot.plan_parts]
  congr 1
  funext outcome
  cases outcome <;> rfl

theorem runBy_afresh {path : Path} {spot : Spot ε κ} (found : root.spotAt? path = some spot)
    (script : spot.node.kind = .script) : runBy (root.afresh program) program root path =
      (do return Answer.ofScript (← (spot.node.afresh program).value)) := by
  have node := root.spotAt?_node path
  rw [found, Option.map_some] at node
  have plan : (root.afresh program).at? path = _ := afresh_at? path root
  rw [← node, Option.map_some] at plan
  simp only [runBy, ← node, plan, script]
  rw [afresh_eq, Plan.parts, Plan.value]
  congr 1
  funext outcome
  cases outcome <;> rfl

omit [DecidableEq ε] [DecidableEq κ] in
theorem ofVariable_cases (root : Node ε κ) (path : Path) (name : String)
    (convert : Outcome → Answer) :
    (∃ answer, Demand.ofVariable root path name convert = .given answer) ∨
      ∃ target, Demand.ofVariable root path name convert = .value target convert := by
  unfold Demand.ofVariable
  split
  · exact .inl ⟨_, rfl⟩
  · split
    · exact .inr ⟨_, rfl⟩
    · exact .inl ⟨_, rfl⟩

/-- A query is answered at once, or it converts the value of one node, or it runs a script. -/
theorem demand_cases (root : Node ε κ) (query : Query) :
    (∃ answer, query.demand root = .given answer) ∨
    (∃ path convert, query.demand root = .value path convert) ∨
    ∃ path spot, query.demand root = .script path ∧ root.spotAt? path = some spot ∧
      spot.node.kind = .script := by
  cases query with
  | value path => exact .inr (.inl ⟨_, _, rfl⟩)
  | evaluate path name =>
    obtain given | ⟨target, demand⟩ := ofVariable_cases root path name .single
    · exact .inl given
    · exact .inr (.inl ⟨target, _, demand⟩)
  | evaluateAs path name wanted =>
    obtain given | ⟨target, demand⟩ := ofVariable_cases root path name
      fun outcome => .single (coerced name wanted outcome)
    · exact .inl given
    · exact .inr (.inl ⟨target, _, demand⟩)
  | run path =>
    cases found : root.spotAt? path with
    | none =>
      refine .inr (.inl ⟨path, .single, ?_⟩)
      rw [Query.demand, ← root.spotAt?_node path, found]
      rfl
    | some spot =>
      have node := root.spotAt?_node path
      rw [found, Option.map_some] at node
      cases script : spot.node.kind with
      | script =>
        refine .inr (.inr ⟨path, spot, ?_, found, script⟩)
        simp only [Query.demand, ← node, Option.map_some, script]
      | alternative | repetition | literal | builtin | run | gap =>
        refine .inr (.inl ⟨path, .single, ?_⟩)
        simp only [Query.demand, ← node, Option.map_some, script]

theorem unwatches_ask (program : ε → Node ε κ → Program σ) (root : Node ε κ) (query : Query) :
    Unwatches (query.ask (watch program) root) (query.ask program root) := by
  rw [Query.ask_eq, Query.ask_eq, Query.askBy_eq _ _ _ (fits_plan _ _),
    Query.askBy_eq _ _ _ (fits_plan _ _)]
  obtain ⟨answer, demand⟩ | ⟨path, convert, demand⟩ | ⟨path, spot, demand, found, script⟩ :=
    root.demand_cases query
  · rw [demand]
    exact unwatches_pure answer
  · rw [demand, Demand.askBy, Demand.askBy]
    refine Unwatches.bind ?_ fun outcome => unwatches_pure _
    cases found : root.spotAt? path with
    | none =>
      rw [valueBy_lost (fits_plan _ _) found, valueBy_lost (fits_plan _ _) found]
      exact unwatches_pure _
    | some spot =>
      rw [valueBy_plan found, valueBy_plan found]
      exact unwatches_value program spot
  · rw [demand, Demand.askBy, Demand.askBy, runBy_plan found script, runBy_plan found script]
    exact (unwatches_compute program spot).bind fun outcome => unwatches_pure _

theorem tracks_ask {ν : Type} {view : σ → ν} (steady : root.Steady view program) (query : Query) :
    Tracks view program root (query.ask program root)
      (query.askBy (root.afresh program) program root) := by
  rw [Query.ask_eq, Query.askBy_eq _ _ _ (fits_plan _ _), Query.askBy_eq _ _ _ (fits_afresh _ _)]
  have below {path : Path} {spot : Spot ε κ} (found : root.spotAt? path = some spot) :
      spot.PlacedIn root ∧ spot.node.Steady view program := by
    refine ⟨spotAt?_placed found, steady.below (show root.at? path = _ from ?_)⟩
    rw [← root.spotAt?_node path, found, Option.map_some]
  obtain ⟨answer, demand⟩ | ⟨path, convert, demand⟩ | ⟨path, spot, demand, found, script⟩ :=
    root.demand_cases query
  · rw [demand]
    exact tracks_pure answer
  · rw [demand, Demand.askBy, Demand.askBy]
    refine Tracks.bind ?_ fun outcome => tracks_pure _
    cases found : root.spotAt? path with
    | none =>
      rw [valueBy_lost (fits_plan _ _) found, valueBy_lost (fits_afresh _ _) found]
      exact tracks_pure _
    | some spot =>
      rw [valueBy_plan found, valueBy_afresh found]
      exact tracks_value (below found).1 (below found).2
  · rw [demand, Demand.askBy, Demand.askBy, runBy_plan found script, runBy_afresh found script]
    exact (tracks_compute (below found).1 (below found).2).bind fun outcome => tracks_pure _

theorem size_spotAt?_le {path : Path} {spot : Spot ε κ} (found : root.spotAt? path = some spot) :
    spot.node.size ≤ root.size := by
  have node := root.spotAt?_node path
  rw [found, Option.map_some] at node
  exact size_at?_le node.symm

/-- What a query leaves behind was asked for on behalf of its target, and its answer is kept. -/
theorem leaves_ask (program : ε → Node ε κ → Program σ) (root : Node ε κ) (query : Query)
    (before : Memo (Watched ε κ σ)) : ∃ new answer after,
      (query.ask (watch program) root).run before = (answer, after) ∧
      Leaves root (fun spot => (query.demand root).target? root = some spot) (root.size + 1)
        before after new ∧
      (query.demand root).recollect root after = some answer := by
  rw [Query.ask_eq, Query.askBy_eq _ _ _ (fits_plan _ _)]
  obtain ⟨answer, demand⟩ | ⟨path, convert, demand⟩ | ⟨path, spot, demand, found, script⟩ :=
    root.demand_cases query
  · rw [demand]
    exact ⟨[], answer, before, rfl, .refl before, rfl⟩
  · rw [demand, Demand.askBy]
    cases found : root.spotAt? path with
    | none =>
      rw [valueBy_lost (fits_plan _ _) found]
      exact ⟨[], _, before, rfl, .refl before, by rw [Demand.recollect, found]⟩
    | some spot =>
      rw [valueBy_plan found]
      obtain ⟨new, leaves, kept⟩ := leavesValue program (spotAt?_placed found) before
      refine ⟨new, convert ((spot.value root.sharedParts (watch program)).run before).1,
        ((spot.value root.sharedParts (watch program)).run before).2, rfl,
        leaves.mono ?_ (Nat.succ_le_succ (size_spotAt?_le found)), ?_⟩
      · rintro _ rfl
        exact found
      · simp only [Demand.recollect, found, kept, Option.map_some]
  · have without : spot.node.evaluator? = none := by
      rw [evaluator?, alternative?, script]
      rfl
    obtain ⟨new, outcome, after, run, leaves, recalled⟩ := leaves_askAll
      (fun _ _ below found' => leavesValue program ((spotAt?_placed found).below found'))
      (spotAt?_placed found) without spot.node.units [] (Except.map Value.list) before rfl
      (List.forall_mem_nil _)
    rw [demand, Demand.askBy, runBy_plan found script, Spot.compute, task_of_script _ script]
    refine ⟨new, outcome, after, ?_, leaves.mono ?_ ?_, ?_⟩
    · change (Answer.ofScript (((askAll _ _).run _).run before).1,
        (((askAll _ _).run _).run before).2) = _
      rw [run]
      cases outcome <;> rfl
    · rintro _ rfl
      exact found
    · exact Nat.le_succ_of_le (size_spotAt?_le found)
    · rw [Demand.recollect, found]
      exact recalled

/-! ### Answers that are kept -/

theorem recallAll_grown {before after : Memo (Watched ε κ σ)} (grown : Grown before after)
    {spot : Spot ε κ} (positions : List Nat) :
    ∀ {answer}, recallAll root before spot positions = some answer →
      recallAll root after spot positions = some answer := by
  induction positions with
  | nil => exact id
  | cons index rest ih =>
    intro answer recalled
    simp only [recallAll, Option.bind_eq_bind, Option.bind_eq_some_iff] at recalled ⊢
    obtain ⟨below, found, outcome, kept, recalled⟩ := recalled
    refine ⟨below, found, outcome, grown.kept _ _ kept, ?_⟩
    cases outcome with
    | error error => exact recalled
    | ok value =>
      simp only [Option.map_eq_some_iff] at recalled ⊢
      obtain ⟨values, recalled, rfl⟩ := recalled
      exact ⟨values, ih recalled, rfl⟩

theorem recollect_grown {before after : Memo (Watched ε κ σ)} (grown : Grown before after)
    {demand : Demand} {answer : Answer} (recalled : demand.recollect root before = some answer) :
    demand.recollect root after = some answer := by
  cases demand with
  | given answer => exact recalled
  | value path convert =>
    rw [Demand.recollect] at recalled ⊢
    cases found : root.spotAt? path with
    | none => rwa [found] at recalled
    | some spot =>
      simp only [found, Option.map_eq_some_iff] at recalled ⊢
      obtain ⟨outcome, kept, rfl⟩ := recalled
      exact ⟨outcome, grown.kept _ _ kept, rfl⟩
  | script path =>
    simp only [Demand.recollect, Option.bind_eq_bind, Option.bind_eq_some_iff] at recalled ⊢
    obtain ⟨spot, found, recalled⟩ := recalled
    exact ⟨spot, found, recallAll_grown grown _ recalled⟩

/-! ### Sessions -/

/-- The answers to queries, each one with what the ones before it left. -/
def askEach (program : ε → Node ε κ → Program σ) (root : Node ε κ) (queries : List Query) :
    Evaluation σ (List Answer) :=
  queries.mapM fun query => query.ask program root

/-- A session begins with nothing kept. -/
def session (program : ε → Node ε κ → Program σ) (root : Node ε κ) (queries : List Query)
    (state : σ) : List Answer × Memo σ :=
  (askEach program root queries).run ⟨[], state⟩

theorem askEach_cons (program : ε → Node ε κ → Program σ) (queries : List Query)
    (memo : Memo σ) : (askEach program root (query :: queries)).run memo =
      (((query.ask program root).run memo).1 ::
        ((askEach program root queries).run ((query.ask program root).run memo).2).1,
      ((askEach program root queries).run ((query.ask program root).run memo).2).2) := by
  rw [askEach, List.mapM_cons]
  rfl

theorem askEach_append (root : Node ε κ) (program : ε → Node ε κ → Program σ)
    (earlier later : List Query) :
    ∀ memo : Memo σ, ((askEach program root (earlier ++ later)).run memo).2 =
      ((askEach program root later).run
        ((askEach program root earlier).run memo).2).2 := by
  induction earlier with
  | nil => exact fun _ => rfl
  | cons query rest ih =>
    intro memo
    rw [List.cons_append, askEach_cons, askEach_cons]
    exact ih _

theorem unwatches_queries (program : ε → Node ε κ → Program σ) (root : Node ε κ)
    (queries : List Query) :
    Unwatches (askEach (watch program) root queries)
      (askEach program root queries) := by
  induction queries with
  | nil => exact unwatches_pure []
  | cons query rest ih =>
    intro memo
    rw [askEach_cons, askEach_cons, unwatches_ask program root query memo, ih]

theorem session_unwatched (program : ε → Node ε κ → Program σ) (root : Node ε κ)
    (queries : List Query) (state : σ) : (session program root queries state).2 =
      (session (watch program) root queries (state, [])).2.unwatched :=
  congrArg Prod.snd (unwatches_queries program root queries ⟨[], (state, [])⟩)

/-- What the queries leave behind was asked for on behalf of their targets. -/
theorem leaves_queries (program : ε → Node ε κ → Program σ) (root : Node ε κ)
    (queries : List Query) : ∀ before : Memo (Watched ε κ σ), ∃ new answers after,
      (askEach (watch program) root queries).run before = (answers, after) ∧
      Leaves root (fun spot => ∃ query ∈ queries, (query.demand root).target? root = some spot)
        (root.size + 1) before after new ∧
      List.Forall₂ (fun query answer => (query.demand root).recollect root after = some answer)
        queries answers := by
  induction queries with
  | nil => exact fun before => ⟨[], [], before, rfl, .refl before, .nil⟩
  | cons query rest ih =>
    intro before
    obtain ⟨new, answer, between, first, leaves, recalled⟩ := leaves_ask program root query before
    obtain ⟨newer, answers, after, others, more, recalledToo⟩ := ih between
    refine ⟨newer ++ new, answer :: answers, after, ?_, .trans (?_ : Leaves _ _ _ _ between _) ?_, ?_⟩
    · rw [askEach_cons, first, others]
    · exact leaves.mono (fun spot target => ⟨query, List.mem_cons_self, target⟩) (Nat.le_refl _)
    · refine more.mono (fun spot target => ?_) (Nat.le_refl _)
      obtain ⟨later, mem, target⟩ := target
      exact ⟨later, List.mem_cons_of_mem _ mem, target⟩
    · exact .cons (recollect_grown more.grown recalled) recalledToo

/-! ### Evaluators without effects -/

/-- The evaluators change nothing. They may look at their surroundings. -/
def Effectless (program : ε → Node ε κ → Program σ) : Prop :=
  ∀ evaluator node, (program evaluator node).Steady fun state => state

theorem answers_queries {ν : Type} {view : σ → ν} (steady : root.Steady view program)
    (queries : List Query) : ∀ memo other : Memo σ, Sound view program root memo →
      view other.surroundings = view memo.surroundings →
      ((askEach program root queries).run memo).1 = queries.map fun query =>
        ((query.askBy (root.afresh program) program root).run other).1 := by
  induction queries with
  | nil => exact fun _ _ _ _ => rfl
  | cons query rest ih =>
    intro memo other sound sight
    obtain ⟨same, -, calm⟩ := tracks_ask steady query memo other sound sight
    rw [askEach_cons, List.map_cons, same, ih _ other calm.sound (by rw [calm.surroundings, sight])]

omit [DecidableEq ε] [DecidableEq κ] in
theorem Effectless.steady (root : Node ε κ) (effectless : Effectless program) :
    root.Steady (fun state => state) program :=
  fun _ below _ => task_steady fun evaluator _ => effectless evaluator below

/-! ### Sentences behind a failure -/

theorem script_child {shared : List (EmptyPart ε κ × Cell)} {script below : Spot ε κ} {index : Nat}
    (kind : script.node.kind = .script) (found : script.at? shared [index] = some below) :
    below.cell.steps = index :: script.cell.steps := by
  have alone : script.node.alternative? = none := by rw [alternative?, kind]
  obtain ⟨child, found, ⟨⟩⟩ := Option.bind_eq_some_iff.mp found
  rw [Spot.childrenFrom_steps alone _ found, Nat.zero_add]

/-- A script does not ask for sentences behind one that failed. -/
theorem not_asks_behind {memo : Memo (Watched ε κ σ)} {script failing later : Spot ε κ}
    {front back : List Nat} {index position : Nat} {error : EvalError}
    (kind : script.node.kind = .script) (units : script.node.units = front ++ index :: back)
    (found : script.at? root.sharedParts [index] = some failing)
    (failed : memo.kept? failing.cell = some (.error error)) (behind : position ∈ back)
    (foundLater : script.at? root.sharedParts [position] = some later) :
    ¬Asks root memo script later := by
  intro asks
  cases asks with
  | evaluator given => simp [evaluator?, alternative?, kind] at given
  | @unit front' back' position' _ units' before found' =>
    have same := (script_child kind foundLater).symm.trans (script_child kind found')
    obtain rfl : position = position' := by simpa using same
    obtain ⟨between, rest, rfl⟩ := List.append_of_mem behind
    have split : (front ++ index :: between) ++ position :: rest = front' ++ position :: back' := by
      rw [← units', units, List.append_assoc, List.cons_append]
    have nodup := script.node.nodup_units
    rw [units', ← split, List.nodup_append, List.nodup_cons] at nodup
    obtain ⟨-, ⟨notBehind, -⟩, apart⟩ := nodup
    have notBefore : position ∉ front ++ index :: between :=
      fun mem => apart position mem position List.mem_cons_self rfl
    obtain ⟨rfl, -⟩ := (List.append_cons_inj_of_notMem notBefore notBehind).mp split
    have earlier : index ∈ front ++ index :: between := by simp
    obtain ⟨spot, value, atIndex, kept⟩ := before index earlier
    rw [found] at atIndex
    cases atIndex
    rw [failed] at kept
    cases kept

/-! ### The whole session -/

/-- The values at given children of the node at a path, one after the other, up to the first
failure. -/
def inOrder (program : ε → Node ε κ → Program σ) (root : Node ε κ) (path : Path) :
    List Nat → Evaluation σ Answer
  | [] => return .ok []
  | index :: rest => do
    match ← root.valueAt program (path ++ [index]) with
    | .error error => return .error error
    | .ok value => return (← inOrder program root path rest).map (value :: ·)

theorem request_unit {path : Path} {spot : Spot ε κ} (found : root.spotAt? path = some spot)
    {index : Nat} (unit : index ∈ spot.node.units) :
    Plan.request (spot.parts root.sharedParts program) [index] =
      root.valueAt program (path ++ [index]) := by
  obtain ⟨child, atIndex⟩ := exists_of_mem_units unit
  have node := Spot.at?_node root.sharedParts [index] spot
  rw [at?, atIndex] at node
  obtain ⟨below, foundBelow, -⟩ := Option.map_eq_some_iff.mp node
  have target : root.spotAt? (path ++ [index]) = some below := by
    rw [spotAt?, Spot.at?_append, ← spotAt?, found]
    exact foundBelow
  obtain ⟨_, _, below', same, found', answer⟩ | ⟨none, -⟩ :=
    spot.request_cases root.sharedParts [index]
  · cases foundBelow.symm.trans found'
    rw [answer, valueAt, valueBy_plan target]
  · cases (none.resolve_left (List.cons_ne_nil _ _)).symm.trans foundBelow

theorem askAll_inOrder {path : Path} {spot : Spot ε κ} (found : root.spotAt? path = some spot)
    (positions : List Nat) (units : ∀ index ∈ positions, index ∈ spot.node.units) :
    ∀ next : Except EvalError (List Value) → Outcome,
      (askAll next positions).run (spot.parts root.sharedParts program) =
        (do return next (← inOrder program root path positions)) := by
  induction positions with
  | nil => exact fun next => rfl
  | cons index rest ih =>
    intro next
    have others := ih fun position mem => units position (List.mem_cons_of_mem _ mem)
    rw [askAll, Program.run, request_unit found (units index List.mem_cons_self), inOrder,
      bind_assoc]
    congr 1
    funext outcome
    cases outcome with
    | error error => rfl
    | ok value =>
      simp only [others, bind_assoc, pure_bind]

/-- To run a script is to evaluate its sentences in their order. -/
theorem runAt_script {path : Path} {spot : Spot ε κ} (found : root.spotAt? path = some spot)
    (kind : spot.node.kind = .script) :
    root.runAt program path = inOrder program root path spot.node.units := by
  have listed (answer : Answer) : Answer.ofScript (answer.map Value.list) = answer := by
    cases answer <;> rfl
  rw [runAt, runBy_plan found kind, Spot.compute, task_of_script _ kind,
    askAll_inOrder found _ fun _ mem => mem]
  simp only [bind_assoc, pure_bind, listed, bind_pure]

/-- What a session does whose evaluators are watched. -/
structure Memoized (program : ε → Node ε κ → Program σ) (root : Node ε κ) (queries : List Query)
    (state : σ) (answers : List Answer) (final : Memo (Watched ε κ σ)) : Prop where
  /-- Without a log everything is the same. -/
  undisturbed : session program root queries state = (answers, final.unwatched)
  /-- Each node has one outcome at most, -/
  once : (final.outcomes.map Prod.fst).Nodup
  /-- and the evaluators of the nodes with an outcome were called, each of them once. -/
  called : (calls final.surroundings.2).Perm (final.outcomes.filterMap (calledIn? root))
  /-- The outcome that a node has at some time is the one that it answers ever after. -/
  first : ∀ earlier later, queries = earlier ++ later → ∀ path spot outcome,
    root.spotAt? path = some spot →
    (session program root earlier state).2.kept? spot.cell = some outcome →
      final.kept? spot.cell = some outcome ∧
      (root.valueAt program path).run final.unwatched = (outcome, final.unwatched)
  /-- All answers are read off outcomes, -/
  recalled : List.Forall₂ (fun query answer =>
    (query.demand root).recollect root final = some answer) queries answers
  /-- and so are all replies to evaluators. -/
  told : ∀ node path outcome, .told node path outcome ∈ final.surroundings.2 →
    Told root final node path outcome
  /-- A node has an outcome only if a query asks for it, maybe by way of other nodes. -/
  needed : ∀ entry ∈ final.outcomes, ∃ query ∈ queries, ∃ target spot : Spot ε κ,
    (query.demand root).target? root = some target ∧ spot.PlacedIn root ∧ spot.cell = entry.1 ∧
      Relation.ReflTransGen (Asks root final) target spot
  /-- To run a script is to evaluate its sentences in their order up to the first failure. -/
  inOrder : ∀ path script, root.spotAt? path = some script → script.node.kind = .script →
    root.runAt program path = root.inOrder program path script.node.units
  /-- A sentence behind the first one of its script that fails has an outcome only if it is not the
  script that asks for it. -/
  stopped : ∀ path (script failing later : Spot ε κ) front index back position error,
    root.spotAt? path = some script → script.node.kind = .script →
    script.node.units = front ++ index :: back →
    script.at? root.sharedParts [index] = some failing →
    final.kept? failing.cell = some (.error error) → position ∈ back →
    script.at? root.sharedParts [position] = some later → (final.kept? later.cell).isSome →
      (∃ query ∈ queries, (query.demand root).target? root = some later) ∨
        ∃ upper, upper ≠ script ∧ Asks root final upper later
  /-- Without effects, each answer is that of a plain recursion. -/
  plain : Effectless program → answers = queries.map fun query =>
    ((query.askBy (root.afresh program) program root).run ⟨[], state⟩).1

/-- Evaluation with kept values is evaluation at most once, and its meaning is that of a plain
recursion: for all evaluators, over any sequence of queries to any nodes. -/
theorem queries_memoized (program : ε → Node ε κ → Program σ) (root : Node ε κ)
    (queries : List Query) (state : σ) :
    Memoized program root queries state (session (watch program) root queries (state, [])).1
      (session (watch program) root queries (state, [])).2 := by
  obtain ⟨new, answers, final, run, leaves, recalled⟩ :=
    leaves_queries program root queries ⟨[], (state, [])⟩
  rw [show session (watch program) root queries (state, []) = (answers, final) from run]
  have outcomes : final.outcomes = new := by rw [leaves.outcomes, List.append_nil]
  have undisturbed : session program root queries state = (answers, final.unwatched) := by
    have same := unwatches_queries program root queries ⟨[], (state, [])⟩
    rw [run] at same
    exact same
  have needed : ∀ entry ∈ final.outcomes, ∃ query ∈ queries, ∃ target spot : Spot ε κ,
      (query.demand root).target? root = some target ∧ spot.PlacedIn root ∧ spot.cell = entry.1 ∧
        Relation.ReflTransGen (Asks root final) target spot := by
    rw [outcomes]
    intro entry mem
    obtain ⟨target, spot, ⟨query, asked, isTarget⟩, placed, same, -, chain⟩ :=
      leaves.asked entry mem
    exact ⟨query, asked, target, spot, isTarget, placed, same, chain⟩
  refine {
    undisturbed, recalled, needed
    once := by rw [outcomes]; exact leaves.distinct
    called := by rw [outcomes]; simpa [calls] using leaves.called
    told := fun node path outcome mem => (leaves.told node path outcome mem).resolve_left nofun
    inOrder := fun path script found kind => runAt_script found kind
    first := ?first
    stopped := ?stopped
    plain := ?plain }
  case first =>
    rintro earlier later rfl path spot outcome found kept
    obtain ⟨newer, more, after, runLater, leavesLater, -⟩ := leaves_queries program root later
      (session (watch program) root earlier (state, [])).2
    have same : after = final := by
      have whole := askEach_append root (watch program) earlier later
        ⟨[], (state, [])⟩
      rw [run] at whole
      exact ((congrArg Prod.snd runLater).symm.trans whole.symm :)
    rw [session_unwatched] at kept
    have keptStill : final.kept? spot.cell = some outcome :=
      same ▸ leavesLater.grown.kept spot.cell outcome kept
    refine ⟨keptStill, ?_⟩
    rw [valueAt, valueBy_plan found]
    exact Spot.value_kept (show final.unwatched.kept? spot.cell = _ from keptStill)
  case stopped =>
    intro path script failing later front index back position error found kind units foundFailing
      failed behind foundLater kept
    have placed := spotAt?_placed found
    obtain ⟨outcome, kept⟩ := Option.isSome_iff_exists.mp kept
    obtain ⟨entry, mem, cell⟩ := Memo.mem_outcomes_of_kept kept
    obtain ⟨query, asked, target, spot, isTarget, spotPlaced, same, chain⟩ := needed entry mem
    obtain rfl := spotPlaced.unique (placed.below foundLater) (same.trans cell)
    rcases chain.cases_tail with rfl | ⟨upper, -, asks⟩
    · exact .inl ⟨query, asked, isTarget⟩
    · refine .inr ⟨upper, ?_, asks⟩
      rintro rfl
      exact not_asks_behind kind units foundFailing failed behind foundLater asks
  case plain =>
    intro effectless
    have plain := answers_queries (effectless.steady root) queries ⟨[], state⟩
      ⟨[], state⟩ (sound_start state) rfl
    rw [← plain]
    exact (congrArg Prod.fst undisturbed).symm

end

end SentenceGrammar.Node
