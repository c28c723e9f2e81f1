import SentenceGrammar.Decimal.Reader
import SentenceGrammar.Evaluation.Program
import SentenceGrammar.Tree.Equality

/-!
# Evaluating trees

Every node is evaluated at most once, when its value is first requested; later requests get the
same outcome. A type is read only once from each place, so the parts that two of its occurrences
there have in common stand for one node, and their values are kept together. No type begins with
itself, so one of two such occurrences is empty, and so are the parts that they have in common.
-/
namespace SentenceGrammar

/-- Where the value of a node is kept. -/
structure Cell where
  /-- Where the text of the node starts. -/
  place : Nat := 0
  /-- The child positions on the way to the node, the last one first. -/
  steps : List Nat := []
  deriving DecidableEq, Repr

/-- An empty child of a type that was read from `place` on. -/
structure EmptyPart (ε κ : Type) where
  place : Nat
  index : Nat
  chosen : Alternative ε κ
  node : Node ε κ
  deriving DecidableEq

/-- The outcomes so far, and the state of the surroundings. -/
structure Memo (σ : Type) where
  outcomes : List (Cell × Outcome) := []
  surroundings : σ

abbrev Evaluation (σ : Type) := StateM (Memo σ)

/-- How to evaluate a node and each of its descendants. -/
inductive Plan (σ : Type) where
  | node (value : Evaluation σ Outcome) (parts : List (Plan σ))

namespace Plan

variable {σ : Type}

def value : Plan σ → Evaluation σ Outcome
  | node value _ => value

def parts : Plan σ → List (Plan σ)
  | node _ parts => parts

/-- The plan of the descendant at a path. -/
def at? : Plan σ → Node.Path → Option (Plan σ)
  | plan, [] => some plan
  | plan, part :: rest => (plan.parts[part]?).bind fun below => below.at? rest

/-- The value of a part below; there is none where the tree has no such part. -/
def request (parts : List (Plan σ)) : Node.Path → Evaluation σ Outcome
  | [] => return .error (.failed "a node cannot request its own value")
  | part :: rest =>
    match (parts[part]?).bind fun below => below.at? rest with
    | some plan => plan.value
    | none => return .error (.failed "no such part")

end Plan

/-- Run a program on a node with the given parts. -/
def Program.run {σ : Type} (parts : List (Plan σ)) : Program σ → Evaluation σ Outcome
  | .done outcome => return outcome
  | .request path next => do
    let outcome ← Plan.request parts path
    (next outcome).run parts
  | .change step next => do
    modify fun memo => { memo with surroundings := step memo.surroundings }
    next.run parts
  | .inspect next => do
    (next (← get).surroundings).run parts

/-- The outcome kept in a cell, which is computed first if there is none yet. -/
def Memo.once {σ : Type} (cell : Cell) (compute : Evaluation σ Outcome) : Evaluation σ Outcome := do
  match (← get).outcomes.lookup cell with
  | some outcome => return outcome
  | none =>
    let outcome ← compute
    modify fun memo => { memo with outcomes := (cell, outcome) :: memo.outcomes }
    return outcome

namespace Node

variable {ε κ σ : Type}

/-- The value of a node of a built-in type. -/
def builtinValue (type : Builtin) (text : String) (span : Span) : Outcome :=
  match type with
  | .float =>
    match Decimal.readFloat? text.toList with
    | some x => .ok (.float x)
    | none => .error (.invalidNumber text .float span)
  | .int =>
    match Decimal.readInt64? text.toList with
    | some n => .ok (.int n)
    | none => .error (.invalidNumber text .int span)
  | .digit | .letter | .whitespace =>
    match text.toList with
    | c :: _ => .ok (.char c)
    | [] => .ok .void

/-- Requests for the values of those children that satisfy a condition. -/
def requests (condition : Node ε κ → Bool) (node : Node ε κ) : List (Program σ) :=
  ((node.children.mapIdx fun index child => (index, child)).filter fun (_, child) =>
    condition child).map fun (index, _) => .request [index] .done

/-- The program for the value of a node: a script yields the values of its sentences, an alternative
what its evaluator says, a repetition the values of its units, and everything else its own text or
number. -/
def task (program : ε → Node ε κ → Program σ) (node : Node ε κ) : Program σ :=
  match node.kind with
  | .script => .all (node.requests fun child => !child.isGap) fun values => .value (.list values)
  | .alternative chosen =>
    match chosen.evaluator with
    | some evaluator => program evaluator node
    | none => .value (if chosen.isSentence then .void else .str node.text)
  | .repetition quantifier =>
    let units := node.requests fun child => !child.isLiteral
    if quantifier = .optional then units.headD (.value .void)
    else .all units fun values => .value (.list values)
  | .builtin type => .done (builtinValue type node.text node.span)
  | .literal _ | .run | .gap => .value (.str node.text)

/-- The given child of a node that was read from `place` on, if it is an empty part of a type. -/
def emptyPart? (place : Nat) (node : Node ε κ) (index : Nat) (child : Node ε κ) :
    Option (EmptyPart ε κ) :=
  match node.alternative? with
  | some chosen =>
    if chosen.isSentence || child.covered != "" then none else some ⟨place, index, chosen, child⟩
  | none => none

mutual

/-- The empty parts of types below a node, each with the cell that it has on its own. -/
def emptyParts (cell : Cell) : Node ε κ → List (EmptyPart ε κ × Cell)
  | ⟨kind, name, span, covered, complete, children⟩ =>
    emptyPartsFrom cell ⟨kind, name, span, covered, complete, children⟩ 0 cell.place children

/-- Those of `parent` from one of its children on, which starts at `place`. -/
def emptyPartsFrom (cell : Cell) (parent : Node ε κ) (index place : Nat) :
    List (Node ε κ) → List (EmptyPart ε κ × Cell)
  | [] => []
  | child :: rest =>
    let below : Cell := ⟨place, index :: cell.steps⟩
    (emptyPart? cell.place parent index child).toList.map (·, below) ++
      (emptyParts below child ++
        emptyPartsFrom cell parent (index + 1) (place + child.covered.utf8ByteSize) rest)

end

section

variable [DecidableEq ε] [DecidableEq κ]

/-- The cell of a child that starts at `place`. An empty part of a type has the cell of the first
one that is the same. -/
def childCell (shared : List (EmptyPart ε κ × Cell)) (cell : Cell) (node : Node ε κ)
    (index place : Nat) (child : Node ε κ) : Cell :=
  ((emptyPart? cell.place node index child).bind fun part => shared.lookup part).getD
    ⟨place, index :: cell.steps⟩

mutual

/-- The plan of a node whose value is kept in the given cell. -/
def planIn (shared : List (EmptyPart ε κ × Cell)) (program : ε → Node ε κ → Program σ)
    (cell : Cell) : Node ε κ → Plan σ
  | ⟨kind, name, span, covered, complete, children⟩ =>
    let node : Node ε κ := ⟨kind, name, span, covered, complete, children⟩
    let parts := plansFrom shared program cell node 0 cell.place children
    .node (Memo.once cell ((task program node).run parts)) parts

/-- The plans of the children of `parent` from one on, which starts at `place`. -/
def plansFrom (shared : List (EmptyPart ε κ × Cell)) (program : ε → Node ε κ → Program σ)
    (cell : Cell) (parent : Node ε κ) (index place : Nat) : List (Node ε κ) → List (Plan σ)
  | [] => []
  | child :: rest =>
    planIn shared program (childCell shared cell parent index place child) child ::
      plansFrom shared program cell parent (index + 1) (place + child.covered.utf8ByteSize) rest

end

/-- The plan of a whole tree. -/
def plan (program : ε → Node ε κ → Program σ) (root : Node ε κ) : Plan σ :=
  planIn (emptyParts {} root) program {} root

end

/-- The value of the node at a path, by the plan of a whole tree. -/
def valueBy (plan : Plan σ) (path : Path) : Evaluation σ Outcome :=
  match plan.at? path with
  | some plan => plan.value
  | none => return .error (.failed "no such part")

/-- The value of a variable below the node at a path. -/
def evaluateBy (plan : Plan σ) (root : Node ε κ) (path : Path) (name : String) :
    Evaluation σ Outcome :=
  match root.at? path with
  | none => return .error (.failed "no such part")
  | some node =>
    match node.find? name with
    | some (below, _) => valueBy plan (path ++ below)
    | none => return .error (.unknownVariable name node.text node.span)

/-- The value of a variable at a wanted type. -/
def evaluateAsBy (plan : Plan σ) (root : Node ε κ) (path : Path) (name : String)
    (wanted : ValueType) : Evaluation σ Outcome := do
  match ← evaluateBy plan root path name with
  | .error error => return .error error
  | .ok value =>
    match value.coerce wanted with
    | .ok coerced => return .ok coerced
    | .error mismatch => return .error (.typeMismatch name mismatch)

/-- The values of the sentences of a script in their order, up to the first failure, or the value
of any other node. The script itself is not evaluated. -/
def runBy (plan : Plan σ) (program : ε → Node ε κ → Program σ) (root : Node ε κ) (path : Path) :
    Evaluation σ (Except EvalError (List Value)) :=
  match root.at? path, plan.at? path with
  | some node, some plan =>
    match node.kind with
    | .script => do
      match ← (task program node).run plan.parts with
      | .error error => return .error error
      | .ok value => return .ok (value.asList?.getD [])
    | _ => do return (← plan.value).map fun value => [value]
  | _, _ => return .error (.failed "no such part")

variable [DecidableEq ε] [DecidableEq κ]

def valueAt (program : ε → Node ε κ → Program σ) (root : Node ε κ) (path : Path) :
    Evaluation σ Outcome :=
  valueBy (root.plan program) path

def evaluateAt (program : ε → Node ε κ → Program σ) (root : Node ε κ) (path : Path)
    (name : String) : Evaluation σ Outcome :=
  evaluateBy (root.plan program) root path name

def evaluateAsAt (program : ε → Node ε κ → Program σ) (root : Node ε κ) (path : Path)
    (name : String) (wanted : ValueType) : Evaluation σ Outcome :=
  evaluateAsBy (root.plan program) root path name wanted

def runAt (program : ε → Node ε κ → Program σ) (root : Node ε κ) (path : Path) :
    Evaluation σ (Except EvalError (List Value)) :=
  runBy (root.plan program) program root path

end Node
end SentenceGrammar
