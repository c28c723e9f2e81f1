import SentenceGrammar.Proofs.SharedNodes

/-!
# How values are computed

A value that is kept is handed out. Another one is computed by the program of its node and then
kept. The program is that of the evaluator, if there is one; otherwise it only asks for the values
of some of the children in their order, as long as there are values.
-/
namespace SentenceGrammar

variable {ε κ σ : Type}

/-! ### Programs -/

namespace Program

variable {parts : List (Plan σ)} {memo : Memo σ}

theorem run_done (outcome : Outcome) :
    ((done outcome).run parts).run memo = (outcome, memo) := rfl

theorem run_request (path : Node.Path) (next : Outcome → Program σ) :
    ((request path next).run parts).run memo =
      ((next ((Plan.request parts path).run memo).1).run parts).run
        ((Plan.request parts path).run memo).2 := rfl

theorem run_change (step : σ → σ) (next : Program σ) : ((change step next).run parts).run memo =
    (next.run parts).run { memo with surroundings := step memo.surroundings } := rfl

theorem run_inspect (next : σ → Program σ) : ((inspect next).run parts).run memo =
    ((next memo.surroundings).run parts).run memo := rfl

end Program

/-- The failure of a request for the value of a node that is not there. -/
def lost : Node.Path → EvalError
  | [] => .failed "a node cannot request its own value"
  | _ => .failed "no such part"

theorem Plan.request_parts (plan : Plan σ) (index : Nat) (rest : Node.Path) :
    Plan.request plan.parts (index :: rest) =
      match plan.at? (index :: rest) with
      | some below => below.value
      | none => pure (.error (lost (index :: rest))) := rfl

/-! ### Values that are kept -/

namespace Memo

variable {cell : Cell} {compute : Evaluation σ Outcome} {memo : Memo σ} {outcome : Outcome}

/-- The outcome kept in a cell. -/
def kept? (memo : Memo σ) (cell : Cell) : Option Outcome := memo.outcomes.lookup cell

/-- The memo with one more outcome. -/
def keep (memo : Memo σ) (cell : Cell) (outcome : Outcome) : Memo σ :=
  { memo with outcomes := (cell, outcome) :: memo.outcomes }

theorem mem_outcomes_of_kept (kept : memo.kept? cell = some outcome) :
    ∃ entry ∈ memo.outcomes, entry.1 = cell := by
  obtain ⟨front, back, split, -⟩ := List.lookup_eq_some_iff.mp kept
  exact ⟨(cell, outcome), by simp [split], rfl⟩

theorem kept?_keep : (memo.keep cell outcome).kept? cell = some outcome := by
  simp [kept?, keep]

theorem kept?_keep_of_ne {other : Cell} (differs : other ≠ cell) :
    (memo.keep cell outcome).kept? other = memo.kept? other := by
  simp [kept?, keep, List.lookup_cons, beq_false_of_ne differs]

theorem run_once : (once cell compute).run memo =
    match memo.kept? cell with
    | some outcome => (outcome, memo)
    | none => ((compute.run memo).1, (compute.run memo).2.keep cell (compute.run memo).1) := by
  unfold kept?
  cases found : memo.outcomes.lookup cell with
  | some outcome => simp [once, StateT.run_bind, found]; rfl
  | none => simp [once, StateT.run_bind, found]; rfl

end Memo

namespace Node

/-! ### Values of spots -/

section

variable [DecidableEq ε] [DecidableEq κ]

namespace Spot

variable (shared : List (EmptyPart ε κ × Cell)) (program : ε → Node ε κ → Program σ)

/-- The value of a node, kept or computed. -/
def value (spot : Spot ε κ) : Evaluation σ Outcome := (spot.plan shared program).value

/-- What the program of a node is run with. -/
def parts (spot : Spot ε κ) : List (Plan σ) := (spot.children shared).map (plan shared program)

/-- The value of a node, computed. -/
def compute (spot : Spot ε κ) : Evaluation σ Outcome :=
  (task program spot.node).run (spot.parts shared program)

variable {shared program} {spot lower : Spot ε κ} {memo : Memo σ}

theorem value_eq (spot : Spot ε κ) :
    spot.value shared program = Memo.once spot.cell (spot.compute shared program) := by
  rw [value, plan_eq]
  rfl

theorem value_kept {outcome : Outcome} (kept : memo.kept? spot.cell = some outcome) :
    (spot.value shared program).run memo = (outcome, memo) := by
  rw [value_eq, Memo.run_once, kept]

theorem value_new (missing : memo.kept? spot.cell = none) :
    (spot.value shared program).run memo = (((spot.compute shared program).run memo).1,
      ((spot.compute shared program).run memo).2.keep spot.cell
        ((spot.compute shared program).run memo).1) := by
  rw [value_eq, Memo.run_once, missing]

variable (shared spot) in
/-- A request is answered by the value of the node at the path. If there is none, it fails, whatever
the programs are. -/
theorem request_cases (path : Path) :
    (∃ index rest lower, path = index :: rest ∧ spot.at? shared path = some lower ∧
      ∀ {σ : Type} (program : ε → Node ε κ → Program σ),
        Plan.request (spot.parts shared program) path = lower.value shared program) ∨
    (path = [] ∨ spot.at? shared path = none) ∧
      ∀ {σ : Type} (program : ε → Node ε κ → Program σ),
        Plan.request (spot.parts shared program) path = pure (.error (lost path)) := by
  cases path with
  | nil => exact .inr ⟨.inl rfl, fun program => rfl⟩
  | cons index rest =>
    have answer {σ : Type} (program : ε → Node ε κ → Program σ) :=
      (spot.plan shared program).request_parts index rest
    simp only [plan_parts, plan_at?] at answer
    cases found : spot.at? shared (index :: rest) with
    | some lower =>
      simp only [found] at answer
      exact .inl ⟨index, rest, lower, rfl, rfl, answer⟩
    | none =>
      simp only [found] at answer
      exact .inr ⟨.inr rfl, answer⟩

variable (shared) in
/-- What holds of a node if it holds of all nodes below it holds of all nodes. -/
theorem induction_below {motive : Spot ε κ → Prop}
    (step : ∀ spot, (∀ index path lower, spot.at? shared (index :: path) = some lower →
      motive lower) → motive spot) (spot : Spot ε κ) : motive spot :=
  step spot fun _ _ lower found =>
    have := size_below_lt found
    induction_below step lower
termination_by spot.node.size

end Spot
end

/-! ### Nodes without an evaluator -/

variable (program : ε → Node ε κ → Program σ) {node : Node ε κ}

/-- The evaluator that a node was read with. -/
def evaluator? (node : Node ε κ) : Option ε := node.alternative?.bind Alternative.evaluator

theorem task_of_evaluator {evaluator : ε} (given : node.evaluator? = some evaluator) :
    task program node = program evaluator node := by
  obtain ⟨chosen, kind, given⟩ := Option.bind_eq_some_iff.mp given
  unfold alternative? at kind
  split at kind
  · next kind' =>
    cases kind
    rw [task, kind']
    simp only [given]
  · cases kind

/-- The positions of the children that satisfy a condition. -/
def positions (condition : Node ε κ → Bool) (node : Node ε κ) : List Nat :=
  ((node.children.mapIdx fun index child => (index, child)).filter fun (_, child) =>
    condition child).map Prod.fst

/-- The positions of the children whose values make up that of a node without an evaluator. -/
def units (node : Node ε κ) : List Nat :=
  match node.kind with
  | .script => node.positions fun child => !child.isGap
  | .repetition quantifier =>
    let units := node.positions fun child => !child.isLiteral
    if quantifier = .optional then units.take 1 else units
  | _ => []

theorem exists_of_mem_positions {condition : Node ε κ → Bool} {index : Nat}
    (mem : index ∈ node.positions condition) :
    ∃ child, node.children[index]? = some child ∧ condition child = true := by
  obtain ⟨⟨_, child⟩, selected, rfl⟩ := List.mem_map.mp mem
  obtain ⟨listed, holds⟩ := List.mem_filter.mp selected
  obtain ⟨i, bound, same⟩ := List.mem_mapIdx.mp listed
  cases same
  exact ⟨_, List.getElem?_eq_getElem bound, holds⟩

theorem nodup_positions (condition : Node ε κ → Bool) : (node.positions condition).Nodup := by
  have indices : (node.children.mapIdx fun index child => (index, child)).map Prod.fst =
      List.range node.children.length := List.ext_getElem (by simp) (by simp)
  exact List.nodup_range.sublist (indices ▸ List.filter_sublist.map Prod.fst)

theorem units_sublist (node : Node ε κ) :
    ∃ condition, node.units.Sublist (node.positions condition) := by
  unfold units
  split
  · exact ⟨_, .refl _⟩
  · refine ⟨fun child => !child.isLiteral, ?_⟩
    simp only
    split
    · exact List.take_sublist _ _
    · exact .refl _
  · exact ⟨fun _ => true, List.nil_sublist _⟩

theorem exists_of_mem_units {index : Nat} (mem : index ∈ node.units) :
    ∃ child, node.children[index]? = some child := by
  obtain ⟨condition, sublist⟩ := node.units_sublist
  obtain ⟨child, found, -⟩ := exists_of_mem_positions (sublist.subset mem)
  exact ⟨child, found⟩

theorem nodup_units (node : Node ε κ) : node.units.Nodup := by
  obtain ⟨condition, sublist⟩ := node.units_sublist
  exact (nodup_positions condition).sublist sublist

/-- Ask for the values of children in their order, as long as there are values. -/
def askAll (next : Except EvalError (List Value) → Outcome) : List Nat → Program σ
  | [] => .done (next (.ok []))
  | index :: rest => .request [index] fun outcome =>
    match outcome with
    | .ok value => askAll (fun values => next (values.map (value :: ·))) rest
    | .error error => .done (next (.error error))

theorem all_requests (positions : List Nat) : ∀ next : Except EvalError (List Value) → Outcome,
    (∀ error, next (.error error) = .error error) →
    Program.all (positions.map fun index => Program.request [index] .done)
      (fun values => .done (next (.ok values))) = askAll (σ := σ) next positions := by
  induction positions with
  | nil => intro next strict; rfl
  | cons index rest ih =>
    intro next strict
    rw [List.map_cons, Program.all, askAll]
    simp only [Program.withValue, Program.andThen]
    congr 1
    funext outcome
    cases outcome with
    | ok value => exact ih (fun values => next (values.map (value :: ·))) strict
    | error error => simp only [Program.fail, strict]

theorem requests_eq (condition : Node ε κ → Bool) (node : Node ε κ) :
    node.requests condition =
      (node.positions condition).map fun index => (.request [index] .done : Program σ) := by
  rw [requests, positions, List.map_map]
  rfl

theorem task_of_script (kind : node.kind = .script) :
    task program node = askAll (Except.map Value.list) node.units := by
  simp only [task, units, kind, requests_eq]
  exact all_requests _ (Except.map Value.list) fun _ => rfl

/-- Without an evaluator, the values of the units are all that matters. -/
theorem task_of_default (without : node.evaluator? = none) :
    ∃ next, ∀ {σ : Type} (program : ε → Node ε κ → Program σ),
      task program node = askAll next node.units := by
  cases kind : node.kind with
  | script => exact ⟨_, fun program => task_of_script program kind⟩
  | alternative chosen =>
    have without : chosen.evaluator = none := by
      simpa [evaluator?, alternative?, kind] using without
    refine ⟨fun _ => .ok (if chosen.isSentence then .void else .str node.text), fun program => ?_⟩
    simp only [task, units, kind, without]
    rfl
  | repetition quantifier =>
    by_cases optional : quantifier = .optional
    · refine ⟨Except.map fun values => values.headD .void, fun program => ?_⟩
      simp only [task, units, kind, requests_eq, if_pos optional]
      cases node.positions fun child => !child.isLiteral with
      | nil => rfl
      | cons index rest =>
        simp only [List.map_cons, List.headD_cons, List.take_succ_cons, List.take_zero, askAll]
        congr 1
        funext outcome
        cases outcome with
        | ok value => rfl
        | error error => rfl
    · refine ⟨Except.map Value.list, fun program => ?_⟩
      simp only [task, units, kind, requests_eq, if_neg optional]
      exact all_requests _ (Except.map Value.list) fun _ => rfl
  | literal text =>
    exact ⟨fun _ => .ok (.str node.text), fun program => by simp only [task, units, kind]; rfl⟩
  | builtin type =>
    exact ⟨fun _ => builtinValue type node.text node.span,
      fun program => by simp only [task, units, kind]; rfl⟩
  | run =>
    exact ⟨fun _ => .ok (.str node.text), fun program => by simp only [task, units, kind]; rfl⟩
  | gap =>
    exact ⟨fun _ => .ok (.str node.text), fun program => by simp only [task, units, kind]; rfl⟩

end Node
end SentenceGrammar
