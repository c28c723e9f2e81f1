import SentenceGrammar.Proofs.Descendants
import SentenceGrammar.Proofs.SessionInvariants

/-!
# Values of repetitions

The children of a repetition are units with separators in between. A separator is a literal and a
unit never is, whatever it looks like, so the value of the repetition is made of the values of its
units. Units are asked in their order up to the first failure. What they answer is kept, and so what
is kept of a repetition always goes with what is kept of its units.

## Main results

`repetition_value`: the children of a repetition in a parse tree, and its value.

`session_settled`: at the end of any session, what is kept of repetitions follows from what is kept of
their units.
-/
namespace SentenceGrammar

variable {ε κ σ : Type}

/-! ### Units and separators -/

namespace Node

/-- Where the units of a repetition stand among its children. -/
def unitPositions (node : Node ε κ) : List Nat := node.positions fun child => !child.isLiteral

theorem mem_positions {condition : Node ε κ → Bool} {node child : Node ε κ} {index : Nat}
    (atIndex : node.children[index]? = some child) :
    index ∈ node.positions condition ↔ condition child = true := by
  constructor
  · intro mem
    obtain ⟨other, found, holds⟩ := exists_of_mem_positions mem
    cases atIndex.symm.trans found
    exact holds
  · intro holds
    obtain ⟨bound, rfl⟩ := List.getElem?_eq_some_iff.mp atIndex
    refine List.mem_map.mpr ⟨(index, node.children[index]), List.mem_filter.mpr ⟨?_, holds⟩, rfl⟩
    exact List.mem_mapIdx.mpr ⟨index, bound, rfl⟩

theorem length_positions (condition : Node ε κ → Bool) (node : Node ε κ) :
    (node.positions condition).length = (node.children.filter condition).length := by
  have children : (node.children.mapIdx fun index child => (index, child)).map Prod.snd =
      node.children := List.ext_getElem (by simp) (by simp)
  conv_rhs => rw [← children, List.filter_map, List.length_map]
  rw [positions, List.length_map]
  rfl

theorem pairwise_positions (condition : Node ε κ → Bool) (node : Node ε κ) :
    (node.positions condition).Pairwise (· < ·) := by
  have indices : (node.children.mapIdx fun index child => (index, child)).map Prod.fst =
      List.range node.children.length := List.ext_getElem (by simp) (by simp)
  exact List.pairwise_lt_range.sublist (indices ▸ List.filter_sublist.map Prod.fst)

end Node

namespace Matching

variable {rules : String → List (Alternative ε κ)} {config : Config} {slot : Placeholder}
  {count total : Nat} {start stop : Cursor} {node : Node ε κ} {nodes : List (Node ε κ)}

theorem DerivesUnit.not_literal (derived : DerivesUnit rules config slot start stop node) :
    node.isLiteral = false := by
  cases derived <;> rfl

/-- The node is the separator between two units. -/
def IsSeparator (config : Config) (node : Node ε κ) : Prop :=
  ∃ text, config.repetition.separator? = some text ∧ node.kind = .literal text ∧ node.covered = text

theorem Opening.separator (opening : Opening config count start stop nodes) :
    ∀ node ∈ nodes, IsSeparator config node := by
  cases opening with
  | first | adjacent => nofun
  | separated _ separator _ => exact List.forall_mem_singleton.mpr ⟨_, separator, rfl, rfl⟩

theorem IsSeparator.literal (separator : IsSeparator config node) : node.isLiteral = true := by
  obtain ⟨_, -, kind, -⟩ := separator
  rw [Node.isLiteral, kind]

theorem Opening.no_units (opening : Opening config count start stop nodes) :
    nodes.filter (fun node => !node.isLiteral) = [] :=
  List.filter_eq_nil_iff.mpr fun node mem => by simp [(opening.separator node mem).literal]

/-- What stands among the children of a repetition is a unit or a separator. -/
theorem DerivesUnits.mem_cases : ∀ {count total : Nat} {start stop : Cursor}
    {nodes : List (Node ε κ)}, DerivesUnits rules config slot count total start stop nodes →
      ∀ node ∈ nodes, (∃ opened closed, DerivesUnit rules config slot opened closed node) ∨
        IsSeparator config node
  | _, _, _, _, _, .done _ _ _ => nofun
  | _, _, _, _, _, .more separator unit _ rest => List.forall_mem_append.mpr
    ⟨fun node mem => .inr (separator.separator node mem),
      List.forall_mem_cons.mpr ⟨.inl ⟨_, _, unit⟩, rest.mem_cases⟩⟩

/-- The nodes that are no literals are as many as the units. -/
theorem DerivesUnits.length_units : ∀ {count total : Nat} {start stop : Cursor}
    {nodes : List (Node ε κ)}, DerivesUnits rules config slot count total start stop nodes →
      count + (nodes.filter fun node => !node.isLiteral).length = total
  | _, _, _, _, _, .done _ _ _ => rfl
  | _, _, _, _, _, .more separator unit _ rest => by
    have further := rest.length_units
    rw [List.filter_append, separator.no_units, List.nil_append,
      List.filter_cons_of_pos (by simp [unit.not_literal]), List.length_cons]
    omega

end Matching

/-! ### What units make of their repetition -/

/-- The value of a repetition from those of its units. -/
def Quantifier.conclude (quantifier : Quantifier) (answer : Except EvalError (List Value)) :
    Outcome :=
  answer.map fun values => if quantifier = .optional then values.headD .void else .list values

/-- How the outcome of a repetition follows from what its units answer, one after the other. -/
structure Quantifier.Yields (quantifier : Quantifier) (outcomes : List Outcome) (outcome : Outcome) :
    Prop where
  /-- All units have values: so has the repetition, a list of them. -/
  values : quantifier ≠ .optional → ∀ values : List Value,
    outcomes = values.map .ok → outcome = .ok (.list values)
  /-- The first failure of a unit is that of the repetition. -/
  failure : quantifier ≠ .optional → ∀ (values : List Value) error rest,
    outcomes = values.map .ok ++ .error error :: rest → outcome = .error error
  /-- An optional unit stands for itself. -/
  unit : quantifier = .optional → outcome = outcomes.headD (.ok .void)

/-- The values in a row of outcomes, or the first failure. -/
def gather (outcomes : List Outcome) : Except EvalError (List Value) := outcomes.mapM id

theorem gather_values (values : List Value) : gather (values.map .ok) = .ok values := by
  induction values with
  | nil => rfl
  | cons value rest ih =>
    rw [gather] at ih ⊢
    rw [List.map_cons, List.mapM_cons, ih]
    rfl

theorem gather_failure (values : List Value) (error : EvalError) (rest : List Outcome) :
    gather (values.map .ok ++ .error error :: rest) = .error error := by
  induction values with
  | nil => rfl
  | cons value values ih =>
    rw [gather] at ih ⊢
    rw [List.map_cons, List.cons_append, List.mapM_cons, ih]
    rfl

theorem Quantifier.yields_gather (quantifier : Quantifier) {outcomes : List Outcome}
    (few : quantifier = .optional → outcomes.length ≤ 1) :
    quantifier.Yields outcomes (quantifier.conclude (gather outcomes)) where
  values several values same := by
    rw [same, gather_values, conclude, Except.map, if_neg several]
  failure _ values error rest same := by
    rw [same, gather_failure]
    rfl
  unit optional := by
    match outcomes, few optional with
    | [], _ => rw [conclude, optional]; rfl
    | [.ok value], _ => rw [conclude, optional]; rfl
    | [.error error], _ => rfl

namespace Node

variable {node : Node ε κ} {quantifier : Quantifier}

/-- A repetition asks for the values of its units, and an optional one for that of the first. -/
theorem task_of_repetition (program : ε → Node ε κ → Program σ)
    (kind : node.kind = .repetition quantifier) :
    task program node = askAll quantifier.conclude node.units := by
  have strict error : quantifier.conclude (.error error) = .error error := rfl
  by_cases optional : quantifier = .optional
  · simp only [task, units, kind, requests_eq, if_pos optional]
    cases node.positions fun child => !child.isLiteral with
    | nil => simp [askAll, Quantifier.conclude, Except.map, optional, Program.value]
    | cons index rest =>
      simp only [List.map_cons, List.headD_cons, List.take_succ_cons, List.take_zero, askAll]
      congr 1
      funext outcome
      cases outcome with
      | ok value => simp [Quantifier.conclude, Except.map, optional]
      | error error => rfl
  · have several values : quantifier.conclude (.ok values) = .ok (.list values) := by
      rw [Quantifier.conclude, Except.map, if_neg optional]
    simp only [task, units, kind, requests_eq, if_neg optional, Program.value, ← several]
    exact all_requests _ _ strict

theorem evaluator?_of_repetition (kind : node.kind = .repetition quantifier) :
    node.evaluator? = none := by
  rw [evaluator?, alternative?, kind]
  rfl

/-! ### What is kept of repetitions -/

section

variable [DecidableEq ε] [DecidableEq κ] {root : Node ε κ} {spot : Spot ε κ}

/-- What is kept of a repetition follows from what is kept of its units. -/
def Settled (root : Node ε κ) (memo : Memo σ) : Prop :=
  ∀ (spot : Spot ε κ) (quantifier : Quantifier) (outcome : Outcome), spot.PlacedIn root →
    spot.node.kind = .repetition quantifier → memo.kept? spot.cell = some outcome →
      ∃ answer, recallAll root memo spot spot.node.units = some answer ∧
        outcome = quantifier.conclude answer

/-- Nothing is kept in the beginning. -/
theorem settled_start {τ : Type} (state : τ) : Settled root ⟨[], state⟩ := by
  intro spot quantifier outcome _ _ kept
  cases kept

/-- Only what is kept matters. -/
theorem recallAll_of_outcomes {τ : Type} {memo : Memo σ} {other : Memo τ}
    (same : other.outcomes = memo.outcomes) (positions : List Nat) :
    recallAll root other spot positions = recallAll root memo spot positions := by
  induction positions with
  | nil => rfl
  | cons index rest ih => simp only [recallAll, Memo.kept?, same, ih]

theorem Settled.of_outcomes {τ : Type} {memo : Memo σ} {other : Memo τ} (settled : Settled root memo)
    (same : other.outcomes = memo.outcomes) : Settled root other := by
  intro spot quantifier outcome placed kind kept
  rw [Memo.kept?, same] at kept
  obtain ⟨answer, recalled, concluded⟩ := settled spot quantifier outcome placed kind kept
  exact ⟨answer, (recallAll_of_outcomes same _).trans recalled, concluded⟩

/-- The evaluation leaves behind what is settled. -/
def Settles {α : Type} (root : Node ε κ) (evaluation : Evaluation σ α) : Prop :=
  ∀ memo, Settled root memo → Settled root (evaluation.run memo).2

variable (program : ε → Node ε κ → Program σ)

/-- When a repetition was computed, the outcomes of its units are kept. -/
theorem compute_recalled (placed : spot.PlacedIn root) (kind : spot.node.kind = .repetition quantifier)
    (before : Memo (Watched ε κ σ)) :
    ∃ answer, ((spot.compute root.sharedParts (watch program)).run before).1 =
        quantifier.conclude answer ∧
      recallAll root ((spot.compute root.sharedParts (watch program)).run before).2 spot
        spot.node.units = some answer := by
  obtain ⟨_, answer, after, run, -, recalled⟩ := leaves_askAll
    (fun _ _ below found => leavesValue program (placed.below found)) placed
    (evaluator?_of_repetition kind) spot.node.units [] quantifier.conclude before rfl
    (List.forall_mem_nil _)
  rw [Spot.compute, task_of_repetition _ kind, run]
  exact ⟨answer, rfl, recalled⟩

theorem settled_lasting : Lasting (watch program) root (Settled root) where
  outcomes same settled := settled.of_outcomes same
  keep {spot before} placed unkept settled := by
    obtain ⟨_, leaves⟩ := leaves_compute program placed
      (fun _ _ below found => leavesValue program (placed.below found)) before
    have grown := grown_keep (leaves.missing placed unkept)
      ((spot.compute root.sharedParts (watch program)).run before).1
    -- The outcome is the new one, whose units were just asked, or it was kept before.
    intro other quantifier outcome otherPlaced kind kept
    by_cases here : other.cell = spot.cell
    · obtain rfl := otherPlaced.unique placed here
      obtain ⟨answer, concluded, recalled⟩ := compute_recalled program placed kind before
      rw [Memo.kept?_keep] at kept
      cases kept
      exact ⟨answer, recallAll_grown grown _ recalled, concluded⟩
    · rw [Memo.kept?_keep_of_ne here] at kept
      obtain ⟨answer, recalled, concluded⟩ := settled other quantifier outcome otherPlaced kind kept
      exact ⟨answer, recallAll_grown grown _ recalled, concluded⟩

theorem settles_value (placed : spot.PlacedIn root) :
    Settles root (spot.value root.sharedParts (watch program)) :=
  (settled_lasting program).value placed

/-- Whatever a session asks for, it ends settled. -/
theorem session_settled (queries : List Query) (state : σ) :
    Settled root (session program root queries state).2 := by
  rw [session_unwatched]
  exact ((settled_lasting program).session (settled_start (state, [])) queries).of_outcomes rfl

/-! ### The units of a repetition -/

/-- The outcomes of the units of the node at a path, one after the other. -/
def unitOutcomes (program : ε → Node ε κ → Program σ) (root : Node ε κ) (path : Path)
    (node : Node ε κ) : Evaluation σ (List Outcome) :=
  node.unitPositions.mapM fun index => root.valueAt program (path ++ [index])

theorem length_unitOutcomes {path : Path} {node : Node ε κ} (memo : Memo σ) :
    ((unitOutcomes program root path node).run memo).1.length = node.unitPositions.length := by
  rw [unitOutcomes]
  induction node.unitPositions generalizing memo with
  | nil => rfl
  | cons index rest ih =>
    rw [List.mapM_cons]
    exact congrArg Nat.succ (ih _)

omit [DecidableEq ε] [DecidableEq κ] in
/-- There is at most one optional unit, so all units of a repetition are asked. -/
theorem units_of_repetition {node : Node ε κ} {quantifier : Quantifier}
    (kind : node.kind = .repetition quantifier)
    (few : quantifier = .optional → node.unitPositions.length ≤ 1) :
    node.units = node.unitPositions := by
  simp only [units, kind, unitPositions]
  split
  next optional => exact List.take_of_length_le (few optional)
  next => rfl

/-- What is kept of units is what they answer, at least up to the first failure. -/
theorem gather_recalled {path : Path} (found : root.spotAt? path = some spot) {memo : Memo σ}
    (positions : List Nat) {answer : Except EvalError (List Value)}
    (recalled : recallAll root memo spot positions = some answer) :
    gather ((positions.mapM fun index => root.valueAt program (path ++ [index])).run memo).1 =
      answer := by
  induction positions generalizing answer with
  | nil => exact Option.some.inj recalled
  | cons index rest ih =>
    simp only [recallAll, Option.bind_eq_bind, Option.bind_eq_some_iff] at recalled
    obtain ⟨below, atIndex, outcome, kept, recalled⟩ := recalled
    have there : root.spotAt? (path ++ [index]) = some below := by
      rw [spotAt?, Spot.at?_append, ← spotAt?, found]
      exact atIndex
    -- What is kept is answered as it is, and nothing changes.
    have first : (root.valueAt program (path ++ [index])).run memo = (outcome, memo) := by
      rw [valueAt, valueBy_plan there]
      exact Spot.value_kept kept
    have split : gather (((index :: rest).mapM fun index =>
        root.valueAt program (path ++ [index])).run memo).1 =
          gather (outcome :: ((rest.mapM fun index =>
            root.valueAt program (path ++ [index])).run memo).1) := by
      rw [List.mapM_cons, StateT.run_bind, first]
      rfl
    rw [split, gather, List.mapM_cons]
    cases outcome with
    | error error => exact Option.some.inj recalled
    | ok value =>
      obtain ⟨values, behind, rfl⟩ := Option.map_eq_some_iff.mp recalled
      have others := ih behind
      rw [gather] at others
      rw [others]
      cases values <;> rfl

/-- Asked for at any time, a repetition answers what its units make of it. -/
theorem value_yields {path : Path} {quantifier : Quantifier} (found : root.spotAt? path = some spot)
    (kind : spot.node.kind = .repetition quantifier)
    (few : quantifier = .optional → spot.node.unitPositions.length ≤ 1) (queries : List Query)
    (state : σ) :
    let reply := (root.valueAt program path).run (session program root queries state).2
    quantifier.Yields ((unitOutcomes program root path spot.node).run reply.2).1 reply.1 := by
  intro reply
  -- The session is watched, and one more request is made.
  let before := (session (watch program) root queries (state, [])).2
  have undisturbed : (session program root queries state).2 = before.unwatched :=
    session_unwatched program root queries state
  let after := (spot.value root.sharedParts (watch program)).run before
  have same : reply = (after.1, after.2.unwatched) := by
    have alike : (spot.value root.sharedParts program).run before.unwatched =
        (after.1, after.2.unwatched) := unwatches_value program spot before
    rw [← alike]
    simp only [reply, undisturbed, valueAt, valueBy_plan found]
  have settled : Settled root after.2 := by
    apply settles_value program (spotAt?_placed found)
    exact (settled_lasting program).session (settled_start (state, [])) queries
  obtain ⟨_, -, kept⟩ := leavesValue program (spotAt?_placed found) before
  obtain ⟨answer, recalled, concluded⟩ :=
    settled spot quantifier after.1 (spotAt?_placed found) kind kept
  rw [units_of_repetition kind few] at recalled
  have unwatched : recallAll root after.2.unwatched spot spot.node.unitPositions = some answer :=
    (recallAll_of_outcomes (show after.2.unwatched.outcomes = after.2.outcomes from rfl) _).trans
      recalled
  have gathered : gather ((unitOutcomes program root path spot.node).run after.2.unwatched).1 =
      answer := gather_recalled program found _ unwatched
  rw [same]
  rw [concluded, ← gathered]
  exact quantifier.yields_gather fun optional =>
    (length_unitOutcomes program _).trans_le (few optional)

/-- What the children of a repetition are, and what its value is. -/
structure Repeats (registry : Registry ε κ) (config : Config) (root : Node ε κ) (path : Path)
    (node : Node ε κ) (quantifier : Quantifier) : Prop where
  /-- There are as many units as the quantifier admits, -/
  least : quantifier.least ≤ node.unitPositions.length
  most : ∀ most, quantifier.most = some most → node.unitPositions.length ≤ most
  /-- in the order of the text, and the text of the repetition is that of its children. -/
  inOrder : node.unitPositions.Pairwise (· < ·)
  /-- Together with the separators between them, they are units of the placeholder in a row. -/
  row : ∃ slot start stop, slot.quantifier = quantifier ∧
    Matching.DerivesUnits registry.alternatives config slot 0 node.unitPositions.length start stop
      node.children ∧
    -- Each child is a unit or a separator, but never both, and only units count.
    ∀ index child, node.children[index]? = some child →
      (index ∈ node.unitPositions ↔ ∃ opened closed,
        Matching.DerivesUnit registry.alternatives config slot opened closed child) ∧
      (index ∉ node.unitPositions ↔ Matching.IsSeparator config child)
  /-- Whatever was asked before, the repetition answers what its units make of it. -/
  value : ∀ {σ : Type} (program : ε → Node ε κ → Program σ) (queries : List Query) (state : σ),
    let reply := (root.valueAt program path).run (session program root queries state).2
    quantifier.Yields ((unitOutcomes program root path node).run reply.2).1 reply.1

/-- Every repetition in a tree of a whole text has the values of its units, or fails as the first of
them that does. -/
theorem repetition_value {registry : Registry ε κ} {config : Config} {text : String}
    (parsed : Matching.parse registry config text = .ok root) {path : Path} {node : Node ε κ}
    (found : root.at? path = some node) {quantifier : Quantifier}
    (kind : node.kind = .repetition quantifier) :
    Repeats registry config root path node quantifier := by
  obtain script | derived := Matching.parse_nodes parsed (below_of_at? found)
  · cases script.symm.trans kind
  obtain ⟨slot, total, start, stop, same, admitted, units⟩ := derived.children_repetition kind
  obtain rfl : node.unitPositions.length = total := by
    rw [unitPositions, length_positions, ← units.length_units, Nat.zero_add]
  have most : ∀ most, quantifier.most = some most → node.unitPositions.length ≤ most := by
    intro most bounded
    simpa [Quantifier.admits, bounded] using (Bool.and_eq_true_iff.mp admitted).2
  refine {
    least := by simpa using (Bool.and_eq_true_iff.mp admitted).1
    most
    inOrder := pairwise_positions _ _
    row := ⟨slot, start, stop, same, units, ?row⟩
    value := ?value }
  case row =>
    intro index child atIndex
    rw [unitPositions, mem_positions atIndex]
    -- A separator is a literal and a unit is none, so no child is both.
    rcases units.mem_cases child (List.mem_of_getElem? atIndex) with ⟨opened, closed, unit⟩ | separator
    · have plain := unit.not_literal
      refine ⟨iff_of_true (by simp [plain]) ⟨opened, closed, unit⟩,
        iff_of_false (by simp [plain]) fun separator => ?_⟩
      exact Bool.false_ne_true (plain.symm.trans separator.literal)
    · refine ⟨iff_of_false (by simp [separator.literal]) ?_,
        iff_of_true (by simp [separator.literal]) separator⟩
      rintro ⟨_, _, unit⟩
      exact Bool.false_ne_true (unit.not_literal.symm.trans separator.literal)
  case value =>
    intro σ program queries state
    obtain ⟨spot, listed, rfl⟩ := Option.map_eq_some_iff.mp ((root.spotAt?_node path).trans found)
    refine value_yields program listed kind ?_ queries state
    -- The optional quantifier admits one unit at most.
    rintro rfl
    exact most 1 rfl

end

/-- A sentence of marks, one of which is the comma. -/
def marks : Registry Empty Empty :=
  .ofItems [("mark", [[.literal "a" ⟨0, 0⟩], [.literal "," ⟨0, 0⟩]])]
    [[.placeholder ⟨"m", .named "mark", .oneOrMore, ⟨0, 0⟩⟩]]

/-- The second comma is a unit, the other two are separators. -/
theorem repetition_value_marks :
    ∃ root node, Matching.parse marks { repetition := .separated "," } "a,,,a" = .ok root ∧
      root.at? [0, 0] = some node ∧ node.kind = .repetition .oneOrMore ∧
        node.unitPositions = [0, 2, 4] ∧
          Repeats marks { repetition := .separated "," } root [0, 0] node .oneOrMore := by
  have read : (Matching.parse marks { repetition := .separated "," } "a,,,a").toOption.bind
      (fun root => (root.at? [0, 0]).map fun node =>
        (node.kind, node.unitPositions)) = some (.repetition .oneOrMore, [0, 2, 4]) := by
    decide +kernel
  obtain ⟨root, node, parsed, found, seen⟩ := Matching.exists_parsed read
  obtain ⟨kind, positions⟩ := Prod.mk.inj seen
  exact ⟨root, node, parsed, found, kind, positions, repetition_value parsed found kind⟩

end Node
end SentenceGrammar
