import SentenceGrammar.Proofs.MemoizedEvaluation

/-!
# Invariants of sessions

Whatever the queries are, the outcomes that are kept come from computations. So a condition on them
that no newly kept outcome breaks holds to the end of any session.

## Main results

`Lasting.value`: an evaluation of a node leaves such a condition as it is.

`Lasting.session`: so does a whole session.
-/
namespace SentenceGrammar.Node

variable {ε κ σ : Type}

/-- The condition still holds behind the evaluation. -/
def Keeps {α : Type} (holds : Memo σ → Prop) (evaluation : Evaluation σ α) : Prop :=
  ∀ memo, holds memo → holds (evaluation.run memo).2

section

variable {α β : Type} {holds : Memo σ → Prop}

theorem keeps_pure (a : α) : Keeps holds (pure a) := fun _ => id

theorem Keeps.bind {evaluation : Evaluation σ α} {next : α → Evaluation σ β}
    (first : Keeps holds evaluation) (second : ∀ a, Keeps holds (next a)) :
    Keeps holds (evaluation >>= next) :=
  fun memo held => second _ _ (first memo held)

end

variable [DecidableEq ε] [DecidableEq κ] {program : ε → Node ε κ → Program σ} {root : Node ε κ}
  {holds : Memo σ → Prop}

variable (program root holds) in
/-- A condition on what is kept that no evaluation in the tree breaks. -/
structure Lasting : Prop where
  /-- It is about the outcomes alone, -/
  outcomes : ∀ {memo other : Memo σ}, other.outcomes = memo.outcomes → holds memo → holds other
  /-- and an outcome may be kept that was just computed. -/
  keep : ∀ {spot : Spot ε κ} {before : Memo σ}, spot.PlacedIn root →
    before.kept? spot.cell = none →
    holds ((spot.compute root.sharedParts program).run before).2 →
      holds (((spot.compute root.sharedParts program).run before).2.keep spot.cell
        ((spot.compute root.sharedParts program).run before).1)

namespace Lasting

variable (lasting : Lasting program root holds)

include lasting

theorem run {parts : List (Plan σ)} (answers : ∀ path, Keeps holds (Plan.request parts path))
    (steps : Program σ) : Keeps holds (steps.run parts) := by
  induction steps with
  | done outcome => exact keeps_pure outcome
  | request path next ih => exact (answers path).bind ih
  | change step next ih =>
    intro memo held
    apply ih
    refine lasting.outcomes ?_ held
    rfl
  | inspect next ih => exact fun memo held => ih _ memo held

theorem compute {spot : Spot ε κ}
    (lower : ∀ index path below, spot.at? root.sharedParts (index :: path) = some below →
      Keeps holds (below.value root.sharedParts program)) :
    Keeps holds (spot.compute root.sharedParts program) := by
  apply lasting.run
  intro path
  obtain ⟨index, rest, below, rfl, found, answer⟩ | ⟨-, answer⟩ :=
    spot.request_cases root.sharedParts path
  · rw [answer]
    exact lower index rest below found
  · rw [answer]
    exact keeps_pure _

/-- The evaluation of a node keeps what it computes of the node and of the nodes below it. -/
theorem value {spot : Spot ε κ} (placed : spot.PlacedIn root) :
    Keeps holds (spot.value root.sharedParts program) := by
  induction spot using Spot.induction_below root.sharedParts with
  | step spot ih =>
    intro before held
    cases kept : before.kept? spot.cell with
    | some outcome =>
      rw [Spot.value_kept kept]
      exact held
    | none =>
      rw [Spot.value_new kept]
      apply lasting.keep placed kept
      apply lasting.compute _ before held
      intro index path below found
      exact ih index path below found (placed.below found)

theorem ask (query : Query) : Keeps holds (query.ask program root) := by
  rw [Query.ask_eq, Query.askBy_eq _ _ _ (fits_plan _ _)]
  obtain ⟨answer, demand⟩ | ⟨path, convert, demand⟩ | ⟨path, spot, demand, found, script⟩ :=
    root.demand_cases query
  · rw [demand]
    exact keeps_pure answer
  · rw [demand, Demand.askBy]
    refine Keeps.bind ?_ fun outcome => keeps_pure _
    cases found : root.spotAt? path with
    | none =>
      rw [valueBy_lost (fits_plan _ _) found]
      exact keeps_pure _
    | some spot =>
      rw [valueBy_plan found]
      exact lasting.value (spotAt?_placed found)
  · rw [demand, Demand.askBy, runBy_plan found script]
    refine Keeps.bind (lasting.compute fun _ _ _ below => ?_) fun outcome => keeps_pure _
    exact lasting.value ((spotAt?_placed found).below below)

theorem askEach (queries : List Query) : Keeps holds (askEach program root queries) := by
  induction queries with
  | nil => exact keeps_pure []
  | cons query rest ih =>
    intro memo held
    rw [askEach_cons]
    exact ih _ (lasting.ask query memo held)

/-- What holds while nothing is kept holds at the end of any session. -/
theorem session {state : σ} (start : holds ⟨[], state⟩) (queries : List Query) :
    holds (session program root queries state).2 :=
  lasting.askEach queries _ start

end Lasting
end SentenceGrammar.Node
