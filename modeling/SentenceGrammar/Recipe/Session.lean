import SentenceGrammar.Preprocess.Language
import SentenceGrammar.Recipe.Advice
import SentenceGrammar.Recipe.Formula

/-!
# Sessions

A parser whose evaluators, completers and listeners are all written as data, together with a log
and string variables that live as long as the session.
-/
namespace SentenceGrammar.Recipe

/-- What a session keeps beside the image. -/
structure Notebook where
  log : List String := []
  strings : List (String × String) := []
  deriving Inhabited

abbrev State := Preprocess.World Notebook

abbrev Evaluator := Preprocess.Rule Formula

abbrev Grammar := Registry Evaluator Advice

abbrev Session := Preprocess.Workplace Formula Advice Notebook

def write (line : String) (state : State) : State :=
  { state with beside := { state.beside with log := state.beside.log ++ [line] } }

/-- The value of a variable; one that was never set is empty. -/
def readVariable (state : State) (name : String) : String :=
  (state.beside.strings.lookup name).getD ""

def setVariable (name value : String) (session : Session) : Session :=
  (session.1, { session.2 with beside :=
    { session.2.beside with strings := (name, value) :: session.2.beside.strings } })

/-- Empty the log. -/
def takeLog (session : Session) : List String × Session :=
  (session.2.beside.log,
    (session.1, { session.2 with beside := { session.2.beside with log := [] } }))

def host : Preprocess.Host Formula Advice Notebook := fun formula node =>
  formula.program write [] node

def meaning : Meaning Evaluator Advice State where
  program := Preprocess.program host
  ask := fun advice node checking => advice.answer write node checking

/-- A change of the grammar. The pattern of a definition may be the value of a variable. -/
inductive Change where
  | define (definition : Definition Evaluator Advice) (patternVariable : Option String)
  | undefine (name : String)
  | setCompleter (name : String) (advice : Advice)
  deriving Inhabited

def Change.apply (change : Change) (state : State) (grammar : Grammar) :
    Except GrammarError Grammar :=
  match change with
  | define definition patternVariable =>
    let pattern := match patternVariable with
      | some name => readVariable state name
      | none => definition.pattern
    (grammar.define { definition with pattern }).mapError .pattern
  | undefine name => (grammar.undefine name).mapError .registry
  | setCompleter name advice => (grammar.setCompleter name advice).mapError .registry

/-- What a listener does before a pass. -/
inductive Action where
  | change (change : Change)
  | ifDefined (name : String) (yes no : List Action)
  | ifVariable (name value : String) (yes no : List Action)
  /-- Write the tag and the names of all types to the log. -/
  | log (tag : String)
  deriving Inhabited

/-- Work on a grammar in a session. What was done before a failure stays done. -/
abbrev Work := GrammarWork Evaluator Advice State

def Change.perform (change : Change) : Work Unit := do
  let (_, state) ← get
  GrammarWork.change (change.apply state)

mutual

def Action.perform : Action → Work Unit
  | .change change => change.perform
  | .ifDefined name yes no => do
    if (← get).1.containsType name then performAll yes else performAll no
  | .ifVariable name value yes no => do
    if readVariable (← get).2 name = value then performAll yes else performAll no
  | .log tag => modify fun (grammar, state) =>
    (grammar, write (tag ++ ":" ++ ",".intercalate grammar.typeNames) state)

/-- The actions one after the other, up to the first failure. -/
def performAll : List Action → Work Unit
  | [] => return
  | action :: rest => do
    action.perform
    performAll rest

end

/-- A session with an empty grammar. -/
def Session.start (config : Config) : Session := ({ config }, { beside := {} })

/-- A session with the grammar of the preprocessing language. -/
def Session.preprocessing (calibration : Calibration) (config : Config) :
    Except PatternError Session :=
  (Preprocess.parser config).map fun parser =>
    (parser, { image := { calibration }, beside := {} })

/-- Carry out an action on the grammar of a session at once. -/
def Session.act (action : Action) (session : Session) : Except GrammarError Unit × Session :=
  let (outcome, registry, state) := action.perform.run (session.1.registry, session.2)
  (outcome, { session.1 with registry }, state)

/-- Add a listener that carries out the actions. -/
def Session.listen (actions : List Action) (session : Session) : Session :=
  ({ session.1 with listeners := session.1.listeners ++ [performAll actions] }, session.2)

/-- The completions at a cursor, or the place of the failure. -/
def completionsAt (text : String) (cursor : Nat) :
    StateM Session (Except (Option Nat) (List String)) := do
  match ← (Parser.autocomplete meaning text cursor).run with
  | .ok suggestions => return .ok (suggestions.map Suggestion.completion)
  | .error error => return .error error.position?

/-- The completions at every cursor from the beginning of a text to just past its end. -/
def sweep (text : String) : StateM Session (List (Except (Option Nat) (List String))) :=
  (List.range (text.utf8ByteSize + 2)).mapM (completionsAt text)

end SentenceGrammar.Recipe
