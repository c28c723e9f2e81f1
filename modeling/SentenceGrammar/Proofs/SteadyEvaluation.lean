import SentenceGrammar.Proofs.EvaluationRules

/-!
# Evaluation without effects

An evaluator is steady if it changes nothing and sees of its surroundings only a part that stays as
it is. The value of a node whose evaluators are all steady is that of a plain recursion that keeps
nothing, whatever was evaluated before.
-/
namespace SentenceGrammar

variable {ε κ σ ν : Type}

/-- The program changes nothing, and how it goes on depends only on what `view` shows of its
surroundings. -/
def Program.Steady (view : σ → ν) : Program σ → Prop
  | done _ => True
  | request _ next => ∀ outcome, (next outcome).Steady view
  | change _ _ => False
  | inspect next =>
    (∀ state, (next state).Steady view) ∧
      ∀ state other, view state = view other → next state = next other

namespace Node

/-! ### Plain recursion -/

mutual

/-- How to evaluate a node and its descendants if nothing is kept. -/
def afresh (program : ε → Node ε κ → Program σ) : Node ε κ → Plan σ
  | ⟨kind, name, span, covered, complete, children⟩ =>
    let parts := afreshAll program children
    .node ((task program ⟨kind, name, span, covered, complete, children⟩).run parts) parts

def afreshAll (program : ε → Node ε κ → Program σ) : List (Node ε κ) → List (Plan σ)
  | [] => []
  | node :: rest => afresh program node :: afreshAll program rest

end

variable {program : ε → Node ε κ → Program σ}

theorem afreshAll_eq (nodes : List (Node ε κ)) :
    afreshAll program nodes = nodes.map (afresh program) := by
  induction nodes with
  | nil => rfl
  | cons node rest ih => rw [afreshAll, ih, List.map_cons]

theorem afresh_eq (node : Node ε κ) : node.afresh program =
    .node ((task program node).run (node.children.map (afresh program)))
      (node.children.map (afresh program)) := by
  cases node with
  | mk kind name span text complete children => rw [afresh, afreshAll_eq]

theorem afresh_at? (path : Path) : ∀ node : Node ε κ,
    (node.afresh program).at? path = (node.at? path).map (afresh program) := by
  induction path with
  | nil => intro node; rfl
  | cons index path ih =>
    intro node
    rw [Plan.at?, at?, afresh_eq, Plan.parts, List.getElem?_map]
    cases node.children[index]? with
    | none => rfl
    | some child => exact ih child

theorem request_afresh (node : Node ε κ) (index : Nat) (rest : Path) :
    Plan.request (node.children.map (afresh program)) (index :: rest) =
      match node.at? (index :: rest) with
      | some below => (below.afresh program).value
      | none => pure (.error (lost (index :: rest))) := by
  have answer := (node.afresh program).request_parts index rest
  rw [afresh_at?, afresh_eq, Plan.parts] at answer
  rw [answer]
  cases node.at? (index :: rest) with
  | none => rfl
  | some below => rfl

theorem askAll_steady {view : σ → ν} (positions : List Nat) :
    ∀ next, (askAll (σ := σ) next positions).Steady view := by
  induction positions with
  | nil => exact fun _ => trivial
  | cons index rest ih =>
    intro next outcome
    cases outcome with
    | ok value => exact ih _
    | error error => trivial

theorem task_steady {view : σ → ν} {node : Node ε κ}
    (given : ∀ evaluator, node.evaluator? = some evaluator →
      (program evaluator node).Steady view) : (task program node).Steady view := by
  cases evaluator : node.evaluator? with
  | some evaluator =>
    rw [task_of_evaluator _ evaluator]
    exact given _ evaluator
  | none =>
    obtain ⟨next, task⟩ := task_of_default evaluator
    rw [task]
    exact askAll_steady node.units next

/-- All evaluators of the tree are steady. -/
def Steady (view : σ → ν) (program : ε → Node ε κ → Program σ) (node : Node ε κ) : Prop :=
  ∀ path below, node.at? path = some below → (task program below).Steady view

theorem Steady.below {view : σ → ν} {node below : Node ε κ} {path : Path}
    (steady : node.Steady view program) (found : node.at? path = some below) :
    below.Steady view program := by
  intro further lowest foundLowest
  exact steady (path ++ further) lowest (by rw [at?_append, found]; exact foundLowest)

/-! ### Both ways to evaluate side by side -/

section

variable (view : σ → ν) (program : ε → Node ε κ → Program σ) (root : Node ε κ)

/-- What is kept for nodes with steady evaluators is what a plain recursion gives. -/
def Sound (memo : Memo σ) : Prop :=
  ∀ spot : Spot ε κ, spot.PlacedIn root → spot.node.Steady view program →
    ∀ outcome, memo.kept? spot.cell = some outcome →
      ∀ other : Memo σ, view other.surroundings = view memo.surroundings →
        ((spot.node.afresh program).value.run other).1 = outcome

variable {view program root}

theorem Sound.of_view {memo later : Memo σ} (sound : Sound view program root memo)
    (same : later.outcomes = memo.outcomes)
    (sight : view later.surroundings = view memo.surroundings) : Sound view program root later := by
  intro spot placed steady outcome kept other alike
  refine sound spot placed steady outcome ?_ other (alike.trans sight)
  rwa [Memo.kept?, same] at kept

theorem Sound.keep_unsteady {memo : Memo σ} {spot : Spot ε κ} {outcome : Outcome}
    (sound : Sound view program root memo) (placed : spot.PlacedIn root)
    (unsteady : ¬spot.node.Steady view program) :
    Sound view program root (memo.keep spot.cell outcome) := by
  intro found foundPlaced steady kept keptThere
  have elsewhere : found.cell ≠ spot.cell := fun here =>
    unsteady (foundPlaced.unique placed here ▸ steady)
  rw [Memo.kept?_keep_of_ne elsewhere] at keptThere
  exact sound found foundPlaced steady kept keptThere

theorem sound_start (state : σ) : Sound view program root ⟨[], state⟩ := nofun

variable (view program root) in
/-- What an evaluation of nodes with steady evaluators leaves: it changes nothing, and it keeps sound
values and none of any other node. -/
structure Calm (memo after : Memo σ) : Prop where
  surroundings : after.surroundings = memo.surroundings
  sound : Sound view program root after
  others : ∀ spot : Spot ε κ, spot.PlacedIn root → ¬spot.node.Steady view program →
    after.kept? spot.cell = memo.kept? spot.cell

theorem Calm.refl {memo : Memo σ} (sound : Sound view program root memo) :
    Calm view program root memo memo := ⟨rfl, sound, fun _ _ _ => rfl⟩

theorem Calm.trans {memo between after : Memo σ} (first : Calm view program root memo between)
    (second : Calm view program root between after) : Calm view program root memo after where
  surroundings := second.surroundings.trans first.surroundings
  sound := second.sound
  others spot placed unsteady :=
    (second.others spot placed unsteady).trans (first.others spot placed unsteady)

variable (view program root) in
/-- With values kept soundly, an evaluation gives what the plain one gives, which keeps nothing. -/
def Tracks {α : Type} (evaluation plain : Evaluation σ α) : Prop :=
  ∀ memo other : Memo σ, Sound view program root memo →
    view other.surroundings = view memo.surroundings →
      (plain.run other).1 = (evaluation.run memo).1 ∧ (plain.run other).2 = other ∧
      Calm view program root memo (evaluation.run memo).2

theorem tracks_pure {α : Type} (a : α) : Tracks view program root (pure a) (pure a) :=
  fun _ _ sound _ => ⟨rfl, rfl, .refl sound⟩

theorem Tracks.bind {α β : Type} {evaluation plain : Evaluation σ α}
    {next plainNext : α → Evaluation σ β} (first : Tracks view program root evaluation plain)
    (second : ∀ a, Tracks view program root (next a) (plainNext a)) :
    Tracks view program root (evaluation >>= next) (plain >>= plainNext) := by
  intro memo other sound sight
  obtain ⟨same, still, calm⟩ := first memo other sound sight
  have unfolded : (plain >>= plainNext).run other =
      (plainNext (evaluation.run memo).1).run other := by
    rw [← same]
    exact congrArg (fun after => (plainNext (plain.run other).1).run after) still
  rw [unfolded]
  obtain ⟨same, still, calmer⟩ :=
    second _ _ other calm.sound (by rw [calm.surroundings, sight])
  exact ⟨same, still, calm.trans calmer⟩

theorem tracks_run {parts plain : List (Plan σ)} {steps : Program σ} (steady : steps.Steady view)
    (tracked : ∀ path,
      Tracks view program root (Plan.request parts path) (Plan.request plain path)) :
    Tracks view program root (steps.run parts) (steps.run plain) := by
  induction steps with
  | done outcome => exact tracks_pure outcome
  | request path next ih => exact (tracked path).bind fun outcome => ih outcome (steady outcome)
  | change step next ih => exact steady.elim
  | inspect next ih =>
    intro memo other sound sight
    rw [Program.run_inspect, Program.run_inspect, steady.2 _ _ sight]
    exact ih _ (steady.1 _) memo other sound sight

variable [DecidableEq ε] [DecidableEq κ]

theorem tracks_once {spot : Spot ε κ} (placed : spot.PlacedIn root)
    (steady : spot.node.Steady view program)
    (tracked : Tracks view program root (spot.compute root.sharedParts program)
      (spot.node.afresh program).value) :
    Tracks view program root (spot.value root.sharedParts program)
      (spot.node.afresh program).value := by
  intro memo other sound sight
  obtain ⟨same, still, calm⟩ := tracked memo other sound sight
  cases kept : memo.kept? spot.cell with
  | some outcome =>
    rw [Spot.value_kept kept]
    exact ⟨sound spot placed steady outcome kept other sight, still, .refl sound⟩
  | none =>
    rw [Spot.value_new kept]
    refine ⟨same, still, calm.surroundings, ?_, ?_⟩
    · intro found foundPlaced foundSteady outcome keptLater later alike
      by_cases here : found.cell = spot.cell
      · obtain rfl := foundPlaced.unique placed here
        rw [Memo.kept?_keep] at keptLater
        cases keptLater
        exact (tracked memo later sound (alike.trans (congrArg view calm.surroundings))).1
      · rw [Memo.kept?_keep_of_ne here] at keptLater
        exact calm.sound found foundPlaced foundSteady outcome keptLater later alike
    · intro found foundPlaced unsteady
      have elsewhere : found.cell ≠ spot.cell := fun here =>
        unsteady (foundPlaced.unique placed here ▸ steady)
      rw [Memo.kept?_keep_of_ne elsewhere]
      exact calm.others found foundPlaced unsteady

theorem tracks_compute_of {spot : Spot ε κ} (placed : spot.PlacedIn root)
    (steady : spot.node.Steady view program)
    (lower : ∀ index path below, spot.at? root.sharedParts (index :: path) = some below →
      below.PlacedIn root → below.node.Steady view program →
        Tracks view program root (below.value root.sharedParts program)
          (below.node.afresh program).value) :
    Tracks view program root (spot.compute root.sharedParts program)
      (spot.node.afresh program).value := by
  rw [afresh_eq, Plan.value, Spot.compute]
  refine tracks_run (steady [] _ rfl) fun path => ?_
  have node := Spot.at?_node root.sharedParts path spot
  obtain ⟨index, rest, below, rfl, found, answer⟩ | ⟨none, answer⟩ :=
    spot.request_cases root.sharedParts path
  · rw [found, Option.map_some] at node
    rw [answer, request_afresh, ← node]
    exact lower index rest below found (placed.below found) (steady.below node.symm)
  · rw [answer]
    cases path with
    | nil => exact tracks_pure _
    | cons index rest =>
      rw [none.resolve_left nofun, Option.map_none] at node
      rw [request_afresh, ← node]
      exact tracks_pure _

theorem tracks_value {spot : Spot ε κ} (placed : spot.PlacedIn root)
    (steady : spot.node.Steady view program) :
    Tracks view program root (spot.value root.sharedParts program)
      (spot.node.afresh program).value := by
  induction spot using Spot.induction_below root.sharedParts with
  | step spot ih => exact tracks_once placed steady (tracks_compute_of placed steady ih)

theorem tracks_compute {spot : Spot ε κ} (placed : spot.PlacedIn root)
    (steady : spot.node.Steady view program) :
    Tracks view program root (spot.compute root.sharedParts program)
      (spot.node.afresh program).value :=
  tracks_compute_of placed steady fun _ _ _ _ => tracks_value

end
end Node
end SentenceGrammar
