import Mathlib.Algebra.Group.Int.Defs
import SentenceGrammar.Proofs.Descendants
import SentenceGrammar.Proofs.NumeralValues
import SentenceGrammar.Proofs.SessionInvariants

/-!
# Values of numbers

A number asks for nothing, so its node always answers the same, whatever the evaluators do. What the
node covers is a word of the grammar that it was read by. Each such word converts, but for integers of
more than 64 bits.

## Main results

`valueAt_of_done`: a node that asks for nothing has one outcome in all sessions.

`number_converts`: the outcomes of the numbers in a parse tree.
-/
namespace SentenceGrammar

variable {ε κ σ : Type}

/-! ### Texts of numbers -/

namespace Matching

variable {rules : String → List (Alternative ε κ)} {config : Config} {slot : Placeholder}
  {start stop : Cursor} {node : Node ε κ} {type : Builtin}

/-- What is read character by character is no number. -/
theorem accepts?_of_runKind {accepts : Char → Bool} (single : slot.target.single? = some accepts)
    (kind : slot.runKind = (.builtin type : NodeKind ε κ)) : type.accepts? = some accepts := by
  rw [Placeholder.runKind] at kind
  split at kind
  next target =>
    rw [target, Target.single?] at single
    split at kind
    · cases kind
      exact single
    · cases kind
  all_goals cases kind

/-- What a number covers is a word of its grammar. -/
theorem DerivesNode.numeral (derived : DerivesNode rules config node)
    (kind : node.kind = .builtin type) (numeric : type.accepts? = none) :
    node.covered.toList ∈ Numeral.language type := by
  cases derived.readAs with
  | unit derived =>
    cases derived with
    | number _ numeral _ =>
      cases kind
      simpa using numeral
    | type => cases kind
  | run same single =>
    have character := accepts?_of_runKind single (same.symm.trans kind)
    rw [numeric] at character
    cases character
  | alternative same | repetition same | literal same | gap same => cases kind.symm.trans same

end Matching

namespace Node

variable [DecidableEq ε] [DecidableEq κ] {program : ε → Node ε κ → Program σ} {root node : Node ε κ}
  {path : Path} {spot : Spot ε κ} {outcome : Outcome}

/-! ### Nodes that ask for nothing -/

variable (program root) in
/-- What is kept of the nodes that ask for nothing is what they come to. -/
def Foregone (memo : Memo σ) : Prop :=
  ∀ (spot : Spot ε κ) (outcome kept : Outcome), spot.PlacedIn root →
    task program spot.node = .done outcome → memo.kept? spot.cell = some kept → kept = outcome

theorem compute_of_done {shared : List (EmptyPart ε κ × Cell)}
    (task : task program spot.node = .done outcome) (memo : Memo σ) :
    (spot.compute shared program).run memo = (outcome, memo) := by
  rw [Spot.compute, task]
  rfl

omit [DecidableEq ε] [DecidableEq κ] in
theorem foregone_start (program : ε → Node ε κ → Program σ) (root : Node ε κ) (state : σ) :
    Foregone program root ⟨[], state⟩ := by
  intro spot outcome kept _ _ keptThere
  cases keptThere

theorem foregone_lasting : Lasting program root (Foregone program root) where
  outcomes same foregone := by
    intro spot outcome kept placed task keptThere
    apply foregone spot outcome kept placed task
    rwa [Memo.kept?, same] at keptThere
  keep {spot before} placed _ foregone := by
    intro other outcome kept otherPlaced task keptThere
    by_cases here : other.cell = spot.cell
    · -- What is kept now was computed of this very node.
      obtain rfl := otherPlaced.unique placed here
      rw [Memo.kept?_keep, compute_of_done task] at keptThere
      exact (Option.some.inj keptThere).symm
    · rw [Memo.kept?_keep_of_ne here] at keptThere
      exact foregone other outcome kept otherPlaced task keptThere

variable (root path outcome) in
/-- The node at the path has the outcome whatever the evaluators are, and whatever was asked
before. -/
def AlwaysAnswers : Prop :=
  ∀ {σ : Type} (program : ε → Node ε κ → Program σ) (queries : List Query) (state : σ),
    ((root.valueAt program path).run (session program root queries state).2).1 = outcome

theorem valueAt_of_done (found : root.at? path = some node)
    (task : task program node = .done outcome) (queries : List Query) (state : σ) :
    ((root.valueAt program path).run (session program root queries state).2).1 = outcome := by
  obtain ⟨spot, listed, rfl⟩ := Option.map_eq_some_iff.mp ((root.spotAt?_node path).trans found)
  have foregone := foregone_lasting.session (foregone_start program root state) queries
  rw [valueAt, valueBy_plan listed]
  cases kept : (session program root queries state).2.kept? spot.cell with
  | some answer =>
    rw [Spot.value_kept kept]
    exact foregone spot outcome answer (spotAt?_placed listed) task kept
  | none => rw [Spot.value_new kept, compute_of_done task]

theorem alwaysAnswers_of_builtin {type : Builtin} (found : root.at? path = some node)
    (kind : node.kind = .builtin type) :
    root.AlwaysAnswers path (builtinValue type node.text node.span) := by
  intro σ program queries state
  apply valueAt_of_done found
  simp only [task, kind]

/-! ### Numbers -/

/-- The outcome of a node for the integer that its text denotes. -/
def integerOutcome (node : Node ε κ) (number : Int) : Outcome :=
  if -2 ^ 63 ≤ number ∧ number ≤ 2 ^ 63 - 1 then .ok (.int number)
  else .error (.invalidNumber node.text .int node.span)

omit [DecidableEq ε] [DecidableEq κ] in
/-- Only integers of 64 bits have values. -/
theorem builtinValue_outside (outside : ∀ number,
    Numeral.DenotesInt node.text.toList number → ¬(-2 ^ 63 ≤ number ∧ number ≤ 2 ^ 63 - 1)) :
    builtinValue .int node.text node.span = .error (.invalidNumber node.text .int node.span) := by
  have unread : Decimal.readInt64? node.text.toList = none := by
    by_contra some
    obtain ⟨number, read⟩ := Option.ne_none_iff_exists'.mp some
    obtain ⟨denotes, within⟩ := Decimal.readInt64?_eq_some_iff.mp read
    exact outside number denotes within
  simp only [builtinValue, unread]

omit [DecidableEq ε] [DecidableEq κ] in
theorem builtinValue_int {number : Int} (denotes : Numeral.DenotesInt node.text.toList number) :
    builtinValue .int node.text node.span = node.integerOutcome number := by
  rw [integerOutcome]
  split
  next within =>
    have read : Decimal.readInt64? node.text.toList = some number :=
      Decimal.readInt64?_eq_some_iff.mpr ⟨denotes, within⟩
    simp only [builtinValue, read]
  next outside =>
    -- No other number is denoted.
    exact builtinValue_outside fun other also within => outside (denotes.unique also ▸ within)

/-- How a node of a tree of the text converts, if it is a number. Only in a text of `2 ^ 32` bytes or
more, where its span cuts it off, may it show no number. -/
structure Converts (text : List Char) (root : Node ε κ) (path : Path) (node : Node ε κ) : Prop where
  /-- The text of an integer denotes a number, -/
  denotes : Text.byteSize text < 2 ^ 32 → node.kind = .builtin .int →
    ∃ number, Numeral.DenotesInt node.text.toList number
  /-- which is its value if it is one of 64 bits, and else the node fails. -/
  integer : node.kind = .builtin .int → ∀ number, Numeral.DenotesInt node.text.toList number →
    root.AlwaysAnswers path (node.integerOutcome number)
  /-- It fails just so if its text denotes none. -/
  undenoted : node.kind = .builtin .int →
    (∀ number, ¬Numeral.DenotesInt node.text.toList number) →
      root.AlwaysAnswers path (.error (.invalidNumber node.text .int node.span))
  /-- A float always has a value. -/
  float : Text.byteSize text < 2 ^ 32 → node.kind = .builtin .float →
    ∃ x, Decimal.readFloat? node.text.toList = some x ∧ root.AlwaysAnswers path (.ok (.float x))

/-- In a tree of a whole text, integers convert exactly or are too large, and floats always
convert. -/
theorem number_converts {registry : Registry ε κ} {config : Config} {text : String}
    (parsed : Matching.parse registry config text = .ok root) (found : root.at? path = some node) :
    Converts text.toList root path node := by
  have below := below_of_at? found
  have numeral {type : Builtin} (small : Text.byteSize text.toList < 2 ^ 32)
      (numeric : type.accepts? = none) (kind : node.kind = .builtin type) :
      node.text.toList ∈ Numeral.language type := by
    rw [Matching.parse_unclipped parsed small node below]
    obtain script | derived := Matching.parse_nodes parsed below
    · cases script.symm.trans kind
    · exact derived.numeral kind numeric
  constructor
  case denotes =>
    intro small kind
    exact Numeral.exists_denotesInt (numeral small rfl kind)
  case integer =>
    intro kind number denotes
    rw [← builtinValue_int denotes]
    exact alwaysAnswers_of_builtin found kind
  case undenoted =>
    intro kind none
    rw [← builtinValue_outside fun number denotes => absurd denotes (none number)]
    exact alwaysAnswers_of_builtin found kind
  case float =>
    intro small kind
    obtain ⟨x, read⟩ := Option.isSome_iff_exists.mp
      (Decimal.readFloat?_isSome (numeral small rfl kind))
    have answers : root.AlwaysAnswers path (builtinValue .float node.text node.span) :=
      alwaysAnswers_of_builtin found kind
    simp only [builtinValue, read] at answers
    exact ⟨x, read, answers⟩

/-- A sentence of two numbers. -/
def coordinates : Registry Empty Empty :=
  .ofItems [] [[.placeholder ⟨"x", .builtin .int, .one, ⟨0, 0⟩⟩,
    .placeholder ⟨"y", .builtin .float, .one, ⟨0, 0⟩⟩]]

/-- All digits but the last one make the integer, which is just too large. -/
theorem number_converts_coordinates :
    Text.byteSize "+092233720368547758080".toList < 2 ^ 32 ∧
      ∃ root node, Matching.parse coordinates {} "+092233720368547758080" = .ok root ∧
        root.at? [0, 0] = some node ∧ node.kind = .builtin .int ∧
          node.text = "+09223372036854775808" ∧ node.integerOutcome (2 ^ 63) =
            .error (.invalidNumber "+09223372036854775808" .int ⟨0, 21⟩) ∧
              Converts "+092233720368547758080".toList root [0, 0] node := by
  have small : Text.byteSize "+092233720368547758080".toList < 2 ^ 32 := by decide
  have read : (Matching.parse coordinates {} "+092233720368547758080").toOption.bind
      (fun root => (root.at? [0, 0]).map fun node => (node.kind, node.text, node.span)) =
        some (.builtin .int, "+09223372036854775808", ⟨0, 21⟩) := by
    decide +kernel
  obtain ⟨root, node, parsed, found, seen⟩ := Matching.exists_parsed read
  simp only [Prod.mk.injEq] at seen
  obtain ⟨kind, text, span⟩ := seen
  refine ⟨small, root, node, parsed, found, kind, text, ?_, number_converts parsed found⟩
  simp [integerOutcome, text, span]

end Node
end SentenceGrammar
