import SentenceGrammar.Evaluation.Failure
import SentenceGrammar.Tree.Lookup

/-!
# Programs of evaluators

An evaluator computes the value of a node step by step: it requests the values of descendants and
may change the state `σ` of its surroundings.
-/
namespace SentenceGrammar

inductive Program (σ : Type) where
  | done (outcome : Outcome)
  /-- Ask for the value of the descendant at a path. -/
  | request (path : Node.Path) (next : Outcome → Program σ)
  | change (step : σ → σ) (next : Program σ)
  | inspect (next : σ → Program σ)

namespace Program

variable {ε κ σ : Type}

def value (value : Value) : Program σ := .done (.ok value)

def fail (error : EvalError) : Program σ := .done (.error error)

/-- Go on with the outcome of a program. -/
def andThen : Program σ → (Outcome → Program σ) → Program σ
  | done outcome, next => next outcome
  | request path rest, next => .request path fun outcome => (rest outcome).andThen next
  | change step rest, next => .change step (rest.andThen next)
  | inspect rest, next => .inspect fun state => (rest state).andThen next

/-- Go on with the value of a program, unless it fails. -/
def withValue (program : Program σ) (next : Value → Program σ) : Program σ :=
  program.andThen fun outcome =>
    match outcome with
    | .ok value => next value
    | .error error => fail error

/-- The value of a variable below a node, which itself stands at `path`. -/
def lookup (path : Node.Path) (node : Node ε κ) (name : String) : Program σ :=
  match node.find? name with
  | some (below, _) => .request (path ++ below) .done
  | none => fail (.unknownVariable name node.text node.span)

/-- The value of a variable at a wanted type, for what follows. -/
def typed {α : Type} (path : Node.Path) (node : Node ε κ) (name : String)
    (convert : Value → Except TypeMismatch α) (next : α → Program σ) : Program σ :=
  (lookup path node name).withValue fun value =>
    match convert value with
    | .ok x => next x
    | .error mismatch => fail (.typeMismatch name mismatch)

/-- Run programs one after the other and collect their values, up to the first failure. -/
def all : List (Program σ) → (List Value → Program σ) → Program σ
  | [], next => next []
  | first :: rest, next => first.withValue fun value =>
    all rest fun values => next (value :: values)

/-- The first value of several programs, or else the last failure. -/
def firstOf : Outcome → List (Program σ) → Program σ
  | last, [] => .done last
  | _, first :: rest => first.andThen fun outcome =>
    match outcome with
    | .ok value => Program.value value
    | .error error => firstOf (.error error) rest

end Program
end SentenceGrammar
