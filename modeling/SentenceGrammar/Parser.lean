import SentenceGrammar.Completion.Decision
import SentenceGrammar.Evaluation.Program
import SentenceGrammar.Matching.Script

/-!
# Parsers

A parser is a grammar with a configuration and listeners. Every pass over a text begins with the
listeners, which may change the grammar. They work on a copy: only if all of them succeed does the
parser go on with what they made of it.
-/
namespace SentenceGrammar

/-- Work on a grammar in place, which may fail with some of it done. It may also change the state
`σ` of its surroundings. -/
abbrev GrammarWork (ε κ σ : Type) := ExceptT GrammarError (StateM (Registry ε κ × σ))

/-- Change the grammar; a failed change leaves it as it is. -/
def GrammarWork.change {ε κ σ : Type} (change : Registry ε κ → Except GrammarError (Registry ε κ)) :
    GrammarWork ε κ σ Unit := do
  let (registry, surroundings) ← get
  match change registry with
  | .ok changed => set (changed, surroundings)
  | .error cause => throw cause

/-- A listener works on the grammar before a pass. -/
abbrev Listener (ε κ σ : Type) := GrammarWork ε κ σ Unit

structure Parser (ε κ σ : Type) where
  registry : Registry ε κ := {}
  listeners : List (Listener ε κ σ) := []
  config : Config := {}

/-- Why a pass failed. -/
inductive ParseError where
  | noMatch (failure : NoMatch)
  /-- The listener at `index` failed, and the grammar was left as it was. -/
  | listenerFailed (index : Nat) (cause : GrammarError)
  deriving DecidableEq, Repr

namespace ParseError

def code : ParseError → ErrorCode
  | noMatch _ => .noMatch
  | listenerFailed .. => .listenerFailed

def message : ParseError → String
  | noMatch failure => failure.message
  | listenerFailed index cause =>
    "parse-start listener #" ++ toString index ++ " failed: " ++ cause.message

def diagnostic (error : ParseError) : Diagnostic :=
  match error with
  | noMatch failure => failure.diagnostic
  | listenerFailed _ cause =>
    { code := error.code, message := error.message, notes := ["caused by " ++ cause.code.text] }

/-- The place of the failure, if the text was looked at. -/
def position? : ParseError → Option Nat
  | noMatch failure => some failure.position
  | listenerFailed .. => none

def expected : ParseError → List Expected
  | noMatch failure => failure.expected
  | listenerFailed .. => []

end ParseError

/-- What evaluators and completers mean: the program that an evaluator runs on a node, and the
answer of a completer about a node. -/
structure Meaning (ε κ σ : Type) where
  program : ε → Node ε κ → Program σ
  ask : Completing.Ask ε κ σ

namespace Parser

variable {ε κ σ : Type}

instance : Inhabited (Parser ε κ σ) := ⟨{}⟩

/-- A pass over a text: it may fail, but what it does to the parser and its surroundings stays. -/
abbrev Pass (ε κ σ α : Type) := ExceptT ParseError (StateM (Parser ε κ σ × σ)) α

/-- Let the listeners change a grammar one after the other, up to the first failure. -/
def runListeners : Nat → List (Listener ε κ σ) → ExceptT ParseError (StateM (Registry ε κ × σ)) Unit
  | _, [] => return
  | index, listener :: rest => do
    listener.adapt (.listenerFailed index)
    runListeners (index + 1) rest

/-- The beginning of every pass: the listeners work on a copy of the grammar. -/
def begin : Pass ε κ σ Unit := do
  let (parser, surroundings) ← get
  let (result, staged, surroundings) :=
    (runListeners 0 parser.listeners).run.run (parser.registry, surroundings)
  match result with
  | .ok () => set ({ parser with registry := staged }, surroundings)
  | .error error => do
    set (parser, surroundings)
    throw error

/-- Read a text as a script. -/
def parse (text : String) : Pass ε κ σ (Node ε κ) := do
  begin
  let (parser, _) ← get
  match Matching.parse parser.registry parser.config text with
  | .ok root => return root
  | .error failure => throw (.noMatch failure)

/-- The part of a text before a cursor, which is moved back to the end of the text or to the
beginning of a character. -/
def textBefore (text : String) (cursor : Nat) : String :=
  String.ofList (Text.takeBytes cursor text.toList)

/-- The unfinished trees of the text before a cursor. -/
def parseUnfinished (text : String) (cursor : Nat) : Pass ε κ σ (List (Node ε κ)) := do
  begin
  let (parser, _) ← get
  match Matching.unfinished parser.registry parser.config (textBefore text cursor) with
  | .ok roots => return roots
  | .error failure => throw (.noMatch failure)

/-- What can be suggested for the text before a cursor. -/
def suggestions (meaning : Meaning ε κ σ) (checking : Bool) (text : String) (cursor : Nat) :
    Pass ε κ σ Suggestions := do
  let roots ← parseUnfinished text cursor
  let (parser, surroundings) ← get
  let (found, surroundings) :=
    (Completing.collect meaning.ask parser.registry parser.config checking [] roots).run
      surroundings
  set (parser, surroundings)
  return found

/-- The suggestions for the text before a cursor; none if they are vetoed. -/
def autocomplete (meaning : Meaning ε κ σ) (text : String) (cursor : Nat) :
    Pass ε κ σ (List Suggestion) := do
  return (← suggestions meaning false text cursor).toList

/-- Whether anything could be suggested for the text before a cursor. -/
def checkCompletion (meaning : Meaning ε κ σ) (text : String) (cursor : Nat) :
    Pass ε κ σ CompletionStatus := do
  return (← suggestions meaning true text cursor).status

def describe (parser : Parser ε κ σ) : String :=
  "Parser \x7b registry: " ++ parser.registry.describe ++
    ", listeners: " ++ toString parser.listeners.length ++
    ", config: " ++ parser.config.describe ++ " \x7d"

end Parser
end SentenceGrammar
