import Mathlib.Logic.Relation
import SentenceGrammar.Proofs.EvaluationRules

/-!
# Watching evaluators

Evaluators can be watched without disturbing them: a log beside their surroundings takes down
which node an evaluator is called for, which paths it asks for, and what it is told. The log and the
kept outcomes belong together. Whatever an evaluation does, the evaluators that it calls are those
of the nodes whose outcomes it keeps, each called once; what it tells them are kept outcomes; and it
keeps the outcomes of those nodes only that were asked for.
-/
namespace SentenceGrammar

variable {ε κ σ : Type}

/-! ### Sightings -/

/-- What is seen of an evaluator. -/
inductive Sighting (ε κ : Type) where
  | called (node : Node ε κ)
  | asked (node : Node ε κ) (path : Node.Path)
  | told (node : Node ε κ) (path : Node.Path) (outcome : Outcome)

/-- Surroundings with a log beside them. -/
abbrev Watched (ε κ σ : Type) := σ × List (Sighting ε κ)

/-- Take down a sighting. -/
def Watched.see (sighting : Sighting ε κ) (state : Watched ε κ σ) : Watched ε κ σ :=
  (state.1, state.2 ++ [sighting])

/-- The program of an evaluator of the given node, with its requests and the replies taken down. -/
def Program.watched (node : Node ε κ) : Program σ → Program (Watched ε κ σ)
  | done outcome => .done outcome
  | request path next => .change (Watched.see (.asked node path))
    (.request path fun outcome => .change (Watched.see (.told node path outcome))
      ((next outcome).watched node))
  | change step next => .change (fun state => (step state.1, state.2)) (next.watched node)
  | inspect next => .inspect fun state => (next state.1).watched node

/-- Every call of an evaluator is taken down, and then what it asks and is told. -/
def watch (program : ε → Node ε κ → Program σ) (evaluator : ε) (node : Node ε κ) :
    Program (Watched ε κ σ) :=
  .change (Watched.see (.called node)) ((program evaluator node).watched node)

/-- The nodes whose evaluators were called. -/
def calls (log : List (Sighting ε κ)) : List (Node ε κ) :=
  log.filterMap fun sighting =>
    match sighting with
    | .called node => some node
    | .asked .. | .told .. => none

/-- The memo without the log. -/
def Memo.unwatched (memo : Memo (Watched ε κ σ)) : Memo σ := ⟨memo.outcomes, memo.surroundings.1⟩

/-! ### Watching disturbs nothing -/

/-- One evaluation is the other one with a log. -/
def Unwatches {α : Type} (watched : Evaluation (Watched ε κ σ) α) (plain : Evaluation σ α) : Prop :=
  ∀ memo, plain.run memo.unwatched = ((watched.run memo).1, (watched.run memo).2.unwatched)

theorem unwatches_pure {α : Type} (a : α) :
    Unwatches (pure a : Evaluation (Watched ε κ σ) α) (pure a) := fun _ => rfl

theorem Unwatches.bind {α β : Type} {watched : Evaluation (Watched ε κ σ) α}
    {plain : Evaluation σ α} {watchedNext : α → Evaluation (Watched ε κ σ) β}
    {next : α → Evaluation σ β} (first : Unwatches watched plain)
    (second : ∀ a, Unwatches (watchedNext a) (next a)) :
    Unwatches (watched >>= watchedNext) (plain >>= next) := by
  intro memo
  rw [StateT.run_bind, StateT.run_bind, first memo]
  exact second _ _

namespace Node

section

variable {parts : List (Plan (Watched ε κ σ))} {plain : List (Plan σ)}
  (answers : ∀ path, Unwatches (Plan.request parts path) (Plan.request plain path))

include answers

theorem unwatches_run (node : Node ε κ) (steps : Program σ) :
    Unwatches ((steps.watched node).run parts) (steps.run plain) := by
  induction steps with
  | done outcome => exact unwatches_pure outcome
  | request path next ih =>
    have replied (outcome : Outcome) : Unwatches
        ((Program.change (Watched.see (.told node path outcome))
          ((next outcome).watched node)).run parts) ((next outcome).run plain) :=
      fun memo => ih outcome ⟨memo.outcomes, memo.surroundings.see (.told node path outcome)⟩
    exact fun memo => (answers path).bind replied
      ⟨memo.outcomes, memo.surroundings.see (.asked node path)⟩
  | change step next ih =>
    exact fun memo => ih ⟨memo.outcomes, step memo.surroundings.1, memo.surroundings.2⟩
  | inspect next ih => exact fun memo => ih _ memo

theorem unwatches_askAll (positions : List Nat) : ∀ next,
    Unwatches ((askAll next positions).run parts) ((askAll next positions).run plain) := by
  induction positions with
  | nil => exact fun next => unwatches_pure _
  | cons index rest ih =>
    intro next
    refine (answers [index]).bind fun outcome => ?_
    cases outcome with
    | ok value => exact ih _
    | error error => exact unwatches_pure _

end

variable [DecidableEq ε] [DecidableEq κ] {shared : List (EmptyPart ε κ × Cell)}
  (program : ε → Node ε κ → Program σ)

theorem unwatches_compute_of {spot : Spot ε κ}
    (lower : ∀ index path below, spot.at? shared (index :: path) = some below →
      Unwatches (below.value shared (watch program)) (below.value shared program)) :
    Unwatches (spot.compute shared (watch program)) (spot.compute shared program) := by
  have answers (path : Path) : Unwatches (Plan.request (spot.parts shared (watch program)) path)
      (Plan.request (spot.parts shared program) path) := by
    obtain ⟨index, rest, below, rfl, found, answer⟩ | ⟨-, answer⟩ := spot.request_cases shared path
    · rw [answer, answer]
      exact lower index rest below found
    · rw [answer, answer]
      exact unwatches_pure _
  rw [Spot.compute, Spot.compute]
  cases given : spot.node.evaluator? with
  | some evaluator =>
    rw [task_of_evaluator _ given, task_of_evaluator _ given]
    exact fun memo => unwatches_run answers spot.node (program evaluator spot.node)
      ⟨memo.outcomes, memo.surroundings.see (.called spot.node)⟩
  | none =>
    obtain ⟨next, task⟩ := task_of_default given
    rw [task, task]
    exact unwatches_askAll answers _ next

theorem unwatches_value (spot : Spot ε κ) :
    Unwatches (spot.value shared (watch program)) (spot.value shared program) := by
  induction spot using Spot.induction_below shared with
  | step spot ih =>
    intro memo
    have same : memo.unwatched.kept? spot.cell = memo.kept? spot.cell := rfl
    cases kept : memo.kept? spot.cell with
    | some outcome => rw [Spot.value_kept kept, Spot.value_kept (same.trans kept)]
    | none =>
      rw [Spot.value_new kept, Spot.value_new (same.trans kept),
        unwatches_compute_of program ih memo]
      rfl

theorem unwatches_compute (spot : Spot ε κ) :
    Unwatches (spot.compute shared (watch program)) (spot.compute shared program) :=
  unwatches_compute_of program fun _ _ below _ => unwatches_value program below

/-! ### What an evaluation leaves behind -/

/-- The values that are kept for children in their order, up to the first failure. -/
def recallAll (root : Node ε κ) (memo : Memo σ) (spot : Spot ε κ) :
    List Nat → Option (Except EvalError (List Value))
  | [] => some (.ok [])
  | index :: rest => do
    let below ← spot.at? root.sharedParts [index]
    match ← memo.kept? below.cell with
    | .ok value => (recallAll root memo spot rest).map fun values => values.map (value :: ·)
    | .error error => some (.error error)

/-- The node of a cell, if it has an evaluator. -/
def calledIn? (root : Node ε κ) (entry : Cell × Outcome) : Option (Node ε κ) :=
  (root.inCell? entry.1).filter fun node => node.evaluator?.isSome

/-- One node asks for the value of another one: its evaluator was seen to do so, or it has none, and
the other one is a unit of it, all units before which have values. -/
inductive Asks (root : Node ε κ) (memo : Memo (Watched ε κ σ)) (upper lower : Spot ε κ) : Prop where
  | evaluator {index : Nat} {path : Path} (given : upper.node.evaluator?.isSome)
      (seen : .asked upper.node (index :: path) ∈ memo.surroundings.2)
      (found : upper.at? root.sharedParts (index :: path) = some lower)
  | unit {front back : List Nat} {index : Nat} (without : upper.node.evaluator? = none)
      (units : upper.node.units = front ++ index :: back)
      (before : ∀ i ∈ front, ∃ earlier value, upper.at? root.sharedParts [i] = some earlier ∧
        memo.kept? earlier.cell = some (.ok value))
      (found : upper.at? root.sharedParts [index] = some lower)

/-- What the evaluator of a node was told is the outcome kept for the node that it asked for, or that
there is none. -/
def Told (root : Node ε κ) (memo : Memo (Watched ε κ σ)) (node : Node ε κ) (path : Path)
    (outcome : Outcome) : Prop :=
  ∃ upper : Spot ε κ, upper.PlacedIn root ∧ upper.node = node ∧
    ((∃ index rest lower, path = index :: rest ∧ upper.at? root.sharedParts path = some lower ∧
      memo.kept? lower.cell = some outcome) ∨
    (path = [] ∨ upper.at? root.sharedParts path = none) ∧ outcome = .error (lost path))

/-- Nothing that was kept or taken down is gone or different. -/
structure Grown (before after : Memo (Watched ε κ σ)) : Prop where
  kept : ∀ cell outcome, before.kept? cell = some outcome → after.kept? cell = some outcome
  log : before.surroundings.2 <+: after.surroundings.2

/-- Requests stay on record. -/
theorem Asks.later {root : Node ε κ} {before after : Memo (Watched ε κ σ)} {upper lower : Spot ε κ}
    (asks : Asks root before upper lower) (grown : Grown before after) :
    Asks root after upper lower := by
  cases asks with
  | evaluator given seen found => exact .evaluator given (grown.log.subset seen) found
  | unit without units earlier found =>
    refine .unit without units (fun i mem => ?_) found
    obtain ⟨spot, value, atIndex, kept⟩ := earlier i mem
    exact ⟨spot, value, atIndex, grown.kept _ _ kept⟩

theorem Told.later {root node : Node ε κ} {before after : Memo (Watched ε κ σ)} {path : Path}
    {outcome : Outcome} (told : Told root before node path outcome) (grown : Grown before after) :
    Told root after node path outcome := by
  obtain ⟨upper, placed, same, ⟨index, rest, lower, split, found, kept⟩ | lost⟩ := told
  · exact ⟨upper, placed, same, .inl ⟨index, rest, lower, split, found, grown.kept _ _ kept⟩⟩
  · exact ⟨upper, placed, same, .inr lost⟩

/-- What an evaluation leaves behind: `new` is what it keeps, for nodes that were asked for on
behalf of one of the `askers`, with less than `bound` nodes each. -/
structure Leaves (root : Node ε κ) (askers : Spot ε κ → Prop) (bound : Nat)
    (before after : Memo (Watched ε κ σ)) (new : List (Cell × Outcome)) : Prop where
  outcomes : after.outcomes = new ++ before.outcomes
  log : before.surroundings.2 <+: after.surroundings.2
  called : (calls after.surroundings.2).Perm
    (new.filterMap (calledIn? root) ++ calls before.surroundings.2)
  told : ∀ node path outcome, .told node path outcome ∈ after.surroundings.2 →
    .told node path outcome ∈ before.surroundings.2 ∨ Told root after node path outcome
  fresh : ∀ entry ∈ new, before.kept? entry.1 = none
  distinct : (new.map Prod.fst).Nodup
  asked : ∀ entry ∈ new, ∃ asker spot : Spot ε κ, askers asker ∧ spot.PlacedIn root ∧
    spot.cell = entry.1 ∧ spot.node.size < bound ∧
      Relation.ReflTransGen (Asks root after) asker spot

section

variable {root : Node ε κ} {askers : Spot ε κ → Prop} {bound : Nat}
  {before between after : Memo (Watched ε κ σ)} {new newer : List (Cell × Outcome)}

namespace Leaves

/-- Nothing is kept and no evaluator is called, whatever else is taken down. -/
theorem quiet (outcomes : after.outcomes = before.outcomes)
    (log : before.surroundings.2 <+: after.surroundings.2)
    (called : calls after.surroundings.2 = calls before.surroundings.2)
    (told : ∀ node path outcome, .told node path outcome ∈ after.surroundings.2 →
      .told node path outcome ∈ before.surroundings.2 ∨ Told root after node path outcome) :
    Leaves root askers bound before after [] where
  outcomes := outcomes
  log := log
  called := by rw [called]; exact .refl _
  told := told
  fresh := nofun
  distinct := .nil
  asked := nofun

theorem refl (memo : Memo (Watched ε κ σ)) : Leaves root askers bound memo memo [] :=
  .quiet rfl List.prefix_rfl rfl fun _ _ _ => .inl

theorem grown (leaves : Leaves root askers bound before after new) : Grown before after where
  log := leaves.log
  kept cell outcome kept := by
    have missing : new.lookup cell = none := by
      rw [List.lookup_eq_none_iff]
      intro entry mem
      rw [bne_iff_ne]
      rintro rfl
      rw [leaves.fresh entry mem] at kept
      cases kept
    rw [Memo.kept?, leaves.outcomes, List.lookup_append, missing]
    exact kept

theorem kept_of_mem (leaves : Leaves root askers bound before after new) {entry : Cell × Outcome}
    (mem : entry ∈ new) : ∃ outcome, after.kept? entry.1 = some outcome := by
  rw [← Option.ne_none_iff_exists', Memo.kept?, leaves.outcomes, Ne, List.lookup_eq_none_iff]
  intro none
  simpa using none entry (List.mem_append_left _ mem)

theorem trans (first : Leaves root askers bound before between new)
    (second : Leaves root askers bound between after newer) :
    Leaves root askers bound before after (newer ++ new) where
  outcomes := by rw [second.outcomes, first.outcomes, List.append_assoc]
  log := first.log.trans second.log
  called := by
    rw [List.filterMap_append, List.append_assoc]
    exact second.called.trans (first.called.append_left _)
  told node path outcome mem := by
    rcases second.told node path outcome mem with mem | told
    · exact (first.told node path outcome mem).imp_right fun told => told.later second.grown
    · exact .inr told
  fresh entry mem := by
    rcases List.mem_append.mp mem with mem | mem
    · cases kept : before.kept? entry.1 with
      | none => rfl
      | some outcome => nomatch (first.grown.kept _ _ kept).symm.trans (second.fresh entry mem)
    · exact first.fresh entry mem
  distinct := by
    rw [List.map_append]
    refine List.nodup_append.mpr ⟨second.distinct, first.distinct, ?_⟩
    intro cell late other early same
    obtain ⟨entry, mem, rfl⟩ := List.mem_map.mp late
    obtain ⟨entry', mem', rfl⟩ := List.mem_map.mp early
    obtain ⟨outcome, kept⟩ := first.kept_of_mem mem'
    rw [← same, second.fresh entry mem] at kept
    cases kept
  asked entry mem := by
    rcases List.mem_append.mp mem with mem | mem
    · exact second.asked entry mem
    · obtain ⟨asker, spot, asking, placed, same, small, chain⟩ := first.asked entry mem
      exact ⟨asker, spot, asking, placed, same, small,
        chain.lift id fun _ _ asks => asks.later second.grown⟩

/-- What is left behind on behalf of a node is so on behalf of one that asked for it. -/
theorem of_asks {asker lower : Spot ε κ} {less : Nat}
    (leaves : Leaves root (· = lower) less before after new) (asks : Asks root after asker lower)
    (smaller : less ≤ bound) : Leaves root (· = asker) bound before after new :=
  { leaves with
    asked := fun entry mem => by
      obtain ⟨_, spot, rfl, placed, same, small, chain⟩ := leaves.asked entry mem
      exact ⟨asker, spot, rfl, placed, same, Nat.lt_of_lt_of_le small smaller, .head asks chain⟩ }

theorem mono {fewer : Spot ε κ → Prop} {less : Nat}
    (leaves : Leaves root fewer less before after new) (asking : ∀ spot, fewer spot → askers spot)
    (smaller : less ≤ bound) : Leaves root askers bound before after new :=
  { leaves with
    asked := fun entry mem => by
      obtain ⟨asker, spot, few, placed, same, small, chain⟩ := leaves.asked entry mem
      exact ⟨asker, spot, asking asker few, placed, same, Nat.lt_of_lt_of_le small smaller, chain⟩ }

end Leaves

end

section

variable (program : ε → Node ε κ → Program σ) {root : Node ε κ} {spot : Spot ε κ}

/-- What the value of a node leaves behind. -/
def LeavesValue (root : Node ε κ) (spot : Spot ε κ) : Prop :=
  ∀ before : Memo (Watched ε κ σ), ∃ new,
    Leaves root (· = spot) (spot.node.size + 1) before
      ((spot.value root.sharedParts (watch program)).run before).2 new ∧
    ((spot.value root.sharedParts (watch program)).run before).2.kept? spot.cell =
      some ((spot.value root.sharedParts (watch program)).run before).1

variable {program}
  (lower : ∀ index path below, spot.at? root.sharedParts (index :: path) = some below →
    LeavesValue program root below)

include lower

/-- A request leaves behind what the value leaves that it is for, if it stays on record. -/
theorem leaves_request (path : Path) (before : Memo (Watched ε κ σ)) (placed : spot.PlacedIn root)
    (recorded : ∀ index rest below after less new, path = index :: rest →
      spot.at? root.sharedParts path = some below →
        Leaves root (· = below) less before after new → Asks root after spot below) :
    ∃ new outcome after,
      (Plan.request (spot.parts root.sharedParts (watch program)) path).run before =
        (outcome, after) ∧
      Leaves root (· = spot) spot.node.size before after new ∧
      Told root after spot.node path outcome := by
  obtain ⟨index, rest, below, rfl, found, answer⟩ | ⟨none, answer⟩ :=
    spot.request_cases root.sharedParts path
  · obtain ⟨new, leaves, kept⟩ := lower index rest below found before
    rw [answer]
    exact ⟨new, _, _, rfl,
      leaves.of_asks (recorded _ _ _ _ _ _ rfl found leaves) (Spot.size_below_lt found),
      spot, placed, rfl, .inl ⟨index, rest, below, rfl, found, kept⟩⟩
  · rw [answer]
    exact ⟨[], _, _, rfl, .refl before, spot, placed, rfl, .inr ⟨none, rfl⟩⟩

/-- What a unit answers is kept afterwards. -/
theorem unit_kept {index : Nat} (unit : index ∈ spot.node.units) (before : Memo (Watched ε κ σ)) :
    ∃ below, spot.at? root.sharedParts [index] = some below ∧
      ((Plan.request (spot.parts root.sharedParts (watch program)) [index]).run before).2.kept?
        below.cell =
      some ((Plan.request (spot.parts root.sharedParts (watch program)) [index]).run before).1 := by
  obtain ⟨child, found⟩ := exists_of_mem_units unit
  have node := Spot.at?_node root.sharedParts [index] spot
  rw [at?, found] at node
  obtain ⟨_, rest, below, same, found, answer⟩ | ⟨none, -⟩ :=
    spot.request_cases root.sharedParts [index]
  · cases same
    obtain ⟨new, -, kept⟩ := lower index [] below found before
    rw [answer]
    exact ⟨below, found, kept⟩
  · rw [none.resolve_left (List.cons_ne_nil _ _)] at node
    cases node

theorem leaves_run (placed : spot.PlacedIn root) (given : spot.node.evaluator?.isSome)
    (steps : Program σ) : ∀ before : Memo (Watched ε κ σ), ∃ new,
    Leaves root (· = spot) spot.node.size before
      (((steps.watched spot.node).run (spot.parts root.sharedParts (watch program))).run before).2
      new := by
  induction steps with
  | done outcome => exact fun before => ⟨[], .refl before⟩
  | request path next ih =>
    intro before
    have asked : Leaves root (· = spot) spot.node.size before
        { before with surroundings := before.surroundings.see (.asked spot.node path) } [] :=
      .quiet rfl (List.prefix_append _ _) (by simp [Watched.see, calls])
        fun _ _ _ mem => .inl (by simpa [Watched.see] using mem)
    obtain ⟨new, outcome, between, run, leaves, told⟩ := leaves_request lower path
      { before with surroundings := before.surroundings.see (.asked spot.node path) } placed
      fun index rest below after less new same found leaves => by
        subst same
        exact .evaluator given (leaves.log.subset (by simp [Watched.see])) found
    have replied : Leaves root (· = spot) spot.node.size between
        { between with surroundings := between.surroundings.see (.told spot.node path outcome) }
        [] := by
      refine .quiet rfl (List.prefix_append _ _) (by simp [Watched.see, calls]) ?_
      intro node path outcome mem
      rcases List.mem_append.mp mem with mem | mem
      · exact .inl mem
      · cases List.mem_singleton.mp mem
        exact .inr told
    obtain ⟨newer, rest⟩ := ih outcome
      { between with surroundings := between.surroundings.see (.told spot.node path outcome) }
    rw [Program.watched, Program.run_change, Program.run_request, run, Program.run_change]
    exact ⟨_, ((asked.trans leaves).trans replied).trans rest⟩
  | change step next ih =>
    intro before
    have changed : Leaves root (· = spot) spot.node.size before
        { before with surroundings := (step before.surroundings.1, before.surroundings.2) } [] :=
      .quiet rfl List.prefix_rfl rfl fun _ _ _ => .inl
    obtain ⟨new, leaves⟩ := ih _
    exact ⟨_, changed.trans leaves⟩
  | inspect next ih => exact fun before => ih _ before

/-- Units are asked in their order as long as there are values, and what they answered is kept. -/
theorem leaves_askAll (placed : spot.PlacedIn root) (without : spot.node.evaluator? = none) (back : List Nat) :
    ∀ (front : List Nat) (next : Except EvalError (List Value) → Outcome)
      (before : Memo (Watched ε κ σ)), spot.node.units = front ++ back →
      (∀ i ∈ front, ∃ earlier value, spot.at? root.sharedParts [i] = some earlier ∧
        before.kept? earlier.cell = some (.ok value)) →
      ∃ new outcome after, ((askAll next back).run
          (spot.parts root.sharedParts (watch program))).run before = (next outcome, after) ∧
        Leaves root (· = spot) spot.node.size before after new ∧
        recallAll root after spot back = some outcome := by
  induction back with
  | nil => exact fun front next before units earlier => ⟨[], .ok [], before, rfl, .refl before, rfl⟩
  | cons index back ih =>
    intro front next before units earlier
    obtain ⟨below, found, kept⟩ := unit_kept lower (show index ∈ _ by simp [units]) before
    obtain ⟨new, reply, between, run, leaves, -⟩ := leaves_request lower [index]
      before placed fun _ _ below after less new same found leaves => by
        cases same
        refine .unit without units (fun i mem => ?_) found
        obtain ⟨spot, value, atIndex, kept⟩ := earlier i mem
        exact ⟨spot, value, atIndex, leaves.grown.kept _ _ kept⟩
    rw [run] at kept
    rw [askAll, Program.run_request, run]
    cases reply with
    | error error =>
      refine ⟨new, .error error, _, rfl, leaves, ?_⟩
      rw [recallAll, found, Option.bind_eq_bind, Option.bind_some, kept]
      rfl
    | ok value =>
      obtain ⟨newer, outcome, after, run, rest, recalled⟩ := ih (front ++ [index])
        (fun values => next (values.map (value :: ·))) between
        (by rw [units, List.append_assoc]; rfl) fun i mem => by
          rcases List.mem_append.mp mem with mem | mem
          · obtain ⟨spot, value, atIndex, kept⟩ := earlier i mem
            exact ⟨spot, value, atIndex, leaves.grown.kept _ _ kept⟩
          · cases List.mem_singleton.mp mem
            exact ⟨below, value, found, kept⟩
      refine ⟨_, outcome.map (value :: ·), after, run, leaves.trans rest, ?_⟩
      rw [recallAll, found, Option.bind_eq_bind, Option.bind_some, rest.grown.kept _ _ kept,
        recalled]
      rfl

end

/-- The memo when the program of a node is begun: a call of its evaluator is taken down. -/
def begun (node : Node ε κ) (memo : Memo (Watched ε κ σ)) : Memo (Watched ε κ σ) :=
  if node.evaluator?.isSome then
    { memo with surroundings := memo.surroundings.see (.called node) }
  else memo

section

variable {root : Node ε κ} {spot : Spot ε κ} {before after : Memo (Watched ε κ σ)}
  {new : List (Cell × Outcome)}

omit [DecidableEq ε] [DecidableEq κ] in
theorem begun_outcomes (node : Node ε κ) : (begun node before).outcomes = before.outcomes := by
  unfold begun
  split <;> rfl

omit [DecidableEq ε] [DecidableEq κ] in
theorem begun_told {node other : Node ε κ} {path : Path} {outcome : Outcome}
    (told : .told other path outcome ∈ (begun node before).surroundings.2) :
    .told other path outcome ∈ before.surroundings.2 := by
  unfold begun at told
  split at told
  · simpa [Watched.see] using told
  · exact told

omit [DecidableEq ε] [DecidableEq κ] in
theorem begun_log (node : Node ε κ) :
    before.surroundings.2 <+: (begun node before).surroundings.2 := by
  unfold begun
  split
  · exact List.prefix_append _ _
  · exact List.prefix_rfl

omit [DecidableEq ε] [DecidableEq κ] in
/-- Nothing is lost if there is one more outcome. -/
theorem grown_keep {cell : Cell} (missing : after.kept? cell = none) (outcome : Outcome) :
    Grown after (after.keep cell outcome) := by
  refine ⟨fun other found kept => ?_, List.prefix_rfl⟩
  rw [Memo.kept?_keep_of_ne, kept]
  rintro rfl
  rw [missing] at kept
  cases kept

/-- Everything kept meanwhile belongs to smaller nodes. -/
theorem Leaves.apart (placed : spot.PlacedIn root)
    (leaves : Leaves root (· = spot) spot.node.size (begun spot.node before) after new) :
    ∀ entry ∈ new, entry.1 ≠ spot.cell := by
  intro entry mem same
  obtain ⟨-, found, -, foundPlaced, foundCell, small, -⟩ := leaves.asked entry mem
  obtain rfl := foundPlaced.unique placed (foundCell.trans same)
  omega

theorem Leaves.missing (placed : spot.PlacedIn root) (missing : before.kept? spot.cell = none)
    (leaves : Leaves root (· = spot) spot.node.size (begun spot.node before) after new) :
    after.kept? spot.cell = none := by
  rw [Memo.kept?, leaves.outcomes, begun_outcomes, List.lookup_append, Option.or_eq_none_iff]
  refine ⟨List.lookup_eq_none_iff.mpr fun entry mem => ?_, missing⟩
  exact bne_iff_ne.mpr (leaves.apart placed entry mem).symm

/-- The outcome is kept of a node that everything kept meanwhile was needed for. -/
theorem Leaves.keep (placed : spot.PlacedIn root) (missing : before.kept? spot.cell = none)
    (leaves : Leaves root (· = spot) spot.node.size (begun spot.node before) after new)
    (outcome : Outcome) :
    Leaves root (· = spot) (spot.node.size + 1) before (after.keep spot.cell outcome)
      ((spot.cell, outcome) :: new) := by
  have apart := leaves.apart placed
  have grown := grown_keep (leaves.missing placed missing) outcome
  exact {
    outcomes := by rw [Memo.keep, leaves.outcomes, begun_outcomes]; rfl
    log := (begun_log _).trans leaves.log
    called := by
      have here : calledIn? root (spot.cell, outcome) =
          if spot.node.evaluator?.isSome then some spot.node else none := by
        rw [calledIn?, placed, Option.filter_some]
      rw [List.filterMap_cons, here]
      refine leaves.called.trans ?_
      unfold begun
      split
      · simp only [Watched.see, calls, List.filterMap_append, List.filterMap_cons,
          List.filterMap_nil, ← List.append_assoc]
        exact List.perm_append_singleton _ _
      · exact .refl _
    told := fun node path outcome mem => by
      rcases leaves.told node path outcome mem with mem | told
      · exact .inl (begun_told mem)
      · exact .inr (told.later grown)
    fresh := fun entry mem => by
      rcases List.mem_cons.mp mem with rfl | mem
      · exact missing
      · have fresh := leaves.fresh entry mem
        rwa [Memo.kept?, begun_outcomes] at fresh
    distinct := by
      rw [List.map_cons, List.nodup_cons]
      refine ⟨fun mem => ?_, leaves.distinct⟩
      obtain ⟨entry, mem, same⟩ := List.mem_map.mp mem
      exact apart entry mem same
    asked := fun entry mem => by
      rcases List.mem_cons.mp mem with rfl | mem
      · exact ⟨spot, spot, rfl, placed, rfl, Nat.lt_succ_self _, .refl⟩
      · obtain ⟨asker, found, asking, foundPlaced, same, small, chain⟩ := leaves.asked entry mem
        exact ⟨asker, found, asking, foundPlaced, same, Nat.lt_succ_of_lt small,
          chain.lift id fun _ _ asks => asks.later grown⟩ }

end

theorem leaves_compute (program : ε → Node ε κ → Program σ) {root : Node ε κ} {spot : Spot ε κ}
    (placed : spot.PlacedIn root)
    (lower : ∀ index path below, spot.at? root.sharedParts (index :: path) = some below →
      LeavesValue program root below) (before : Memo (Watched ε κ σ)) :
    ∃ new, Leaves root (· = spot) spot.node.size (begun spot.node before)
      ((spot.compute root.sharedParts (watch program)).run before).2 new := by
  rw [Spot.compute, begun]
  cases given : spot.node.evaluator? with
  | some evaluator =>
    rw [task_of_evaluator _ given, watch, Program.run_change]
    exact leaves_run lower placed (by rw [given]; rfl) (program evaluator spot.node) _
  | none =>
    obtain ⟨next, task⟩ := task_of_default given
    rw [task]
    obtain ⟨new, outcome, after, run, leaves, -⟩ :=
      leaves_askAll lower placed given spot.node.units [] next before rfl nofun
    exact ⟨new, by rw [run]; exact leaves⟩

theorem leavesValue (program : ε → Node ε κ → Program σ) {root : Node ε κ} {spot : Spot ε κ}
    (placed : spot.PlacedIn root) : LeavesValue program root spot := by
  induction spot using Spot.induction_below root.sharedParts with
  | step spot ih =>
    intro before
    cases kept : before.kept? spot.cell with
    | some outcome =>
      rw [Spot.value_kept kept]
      exact ⟨[], .refl before, kept⟩
    | none =>
      rw [Spot.value_new kept]
      obtain ⟨new, leaves⟩ := leaves_compute program placed
        (fun index path below found => ih index path below found (placed.below found)) before
      exact ⟨_, leaves.keep placed kept _, Memo.kept?_keep⟩

end Node
end SentenceGrammar
