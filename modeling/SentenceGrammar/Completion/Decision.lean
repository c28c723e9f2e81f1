import SentenceGrammar.Completion.Suggestion
import SentenceGrammar.Grammar.Registry

/-!
# Deciding what to suggest

An unfinished tree ends in a chain of incomplete nodes. From the outermost one inward, the first
completer that does not defer decides; without one, the innermost node has a default. One veto
rules out the suggestions of all trees.
-/
namespace SentenceGrammar

namespace Node

variable {ε κ : Type}

mutual

/-- The node itself, its last child if that is incomplete, and so on. -/
def openChain : Node ε κ → List (Node ε κ)
  | ⟨kind, name, span, covered, complete, children⟩ =>
    ⟨kind, name, span, covered, complete, children⟩ :: openChainLast children

def openChainLast : List (Node ε κ) → List (Node ε κ)
  | [] => []
  | [node] => if node.complete then [] else openChain node
  | _ :: next :: rest => openChainLast (next :: rest)

end
end Node

/-- Whether anything can be suggested. -/
inductive CompletionStatus where
  | available | vetoed | empty
  deriving DecidableEq, Repr

/-- The name of the status. -/
def CompletionStatus.text : CompletionStatus → String
  | available => "available"
  | vetoed => "vetoed"
  | empty => "empty"

/-- What all trees together suggest. -/
inductive Suggestions where
  | vetoed
  | offered (suggestions : List Suggestion)
  deriving DecidableEq, Repr

def Suggestions.toList : Suggestions → List Suggestion
  | vetoed => []
  | offered suggestions => suggestions

def Suggestions.status : Suggestions → CompletionStatus
  | vetoed => .vetoed
  | offered [] => .empty
  | offered (_ :: _) => .available

namespace Completing

variable {ε κ σ : Type}

/-- Asking a completer about a node. The flag tells that only the possibility of completion is of
interest. A completer may change the state `σ` of its surroundings. -/
abbrev Ask (ε κ σ : Type) := κ → Node ε κ → Bool → StateM σ Completion

/-- The completer in charge of an alternative: that of its type goes first. -/
def completerOf? (registry : Registry ε κ) (chosen : Alternative ε κ) : Option κ :=
  match chosen.owner.bind registry.typeCompleter? with
  | some completer => some completer
  | none => chosen.completer

/-- The answer of one node of the chain, not looking at those further in. -/
def ownAnswer (ask : Ask ε κ σ) (registry : Registry ε κ) (config : Config) (checking : Bool)
    (node : Node ε κ) : StateM σ Completion :=
  match node.alternative? with
  | none => return .defer
  | some chosen => do
    let answer ← match completerOf? registry chosen with
      | some completer => ask completer node checking
      | none => pure .defer
    if answer = .defer ∧ chosen.insertWhole ∧ node.text = "" then
      return .suggest [.whole config chosen.pattern.items]
    else return answer

/-- What the innermost node suggests if nobody decided. A number that was begun is up to the
user. -/
def default (node : Node ε κ) : Completion :=
  let marker := Completion.placeholder (node.name.getD "value")
  match node.kind with
  | .literal text => .suggest [.literal text node.text]
  | .builtin type =>
    if node.text = "" then marker
    else if type.isNumeric then .veto
    else .suggest []
  | .run => if node.text = "" then marker else .suggest []
  | .script | .alternative _ | .repetition _ | .gap => .suggest []

/-- The deciding answer of a chain. -/
def decide (ask : Ask ε κ σ) (registry : Registry ε κ) (config : Config) (checking : Bool) :
    List (Node ε κ) → StateM σ Completion
  | [] => return .defer
  | node :: rest => do
    match ← ownAnswer ask registry config checking node with
    | .defer =>
      if rest.isEmpty then return default node
      else decide ask registry config checking rest
    | answer => return answer

/-- The suggestions of an answer, with the config's marker for a placeholder. -/
def offers (config : Config) : Completion → List Suggestion
  | .suggest suggestions => suggestions
  | .placeholder name => [.placeholder (config.marker name)]
  | .veto | .defer => []

/-- The suggestions whose completions are new, one for each completion. -/
def addNew (known : List Suggestion) (suggestions : List Suggestion) : List Suggestion :=
  suggestions.foldl (fun known suggestion =>
    if known.any fun earlier => earlier.completion = suggestion.completion then known
    else known ++ [suggestion]) known

/-- The suggestions of all trees in their order; nobody is asked any more after a veto. -/
def collect (ask : Ask ε κ σ) (registry : Registry ε κ) (config : Config) (checking : Bool) :
    List Suggestion → List (Node ε κ) → StateM σ Suggestions
  | known, [] => return .offered known
  | known, root :: rest => do
    match ← decide ask registry config checking root.openChain with
    | .veto => return .vetoed
    | answer => collect ask registry config checking (addNew known (offers config answer)) rest

end Completing
end SentenceGrammar
