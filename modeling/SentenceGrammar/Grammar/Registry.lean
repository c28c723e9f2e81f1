import SentenceGrammar.Grammar.Alternative
import SentenceGrammar.Pattern.Reader

/-!
# Registries

A registry holds the grammar: named types with their alternatives, in the order of their names, and
the sentences in the order of their definition. Definitions only ever add an alternative; a type
that is taken back loses all of them. A failed operation changes nothing.
-/
namespace SentenceGrammar

/-- No type has the given name. -/
structure UnknownType where
  name : String
  deriving DecidableEq, Repr

namespace UnknownType

def code (_ : UnknownType) : ErrorCode := .unknownType

def message (error : UnknownType) : String := "type `" ++ error.name ++ "` is not defined"

def diagnostic (error : UnknownType) : Diagnostic where
  code := error.code
  message := error.message

end UnknownType

/-- Why a grammar could not be changed. -/
inductive GrammarError where
  | pattern (error : PatternError)
  | registry (error : UnknownType)
  deriving DecidableEq, Repr

namespace GrammarError

def code : GrammarError → ErrorCode
  | pattern error => error.code
  | registry error => error.code

def message : GrammarError → String
  | pattern error => error.message
  | registry error => error.message

def diagnostic : GrammarError → Diagnostic
  | pattern error => error.diagnostic
  | registry error => error.diagnostic

end GrammarError

/-- An alternative to be defined: of the named type, or a sentence if there is no name. -/
structure Definition (ε κ : Type) where
  name : Option String
  pattern : String
  evaluator : Option ε := none
  completer : Option κ := none
  insertWhole : Bool := false

/-- A defined type. -/
structure TypeEntry (ε κ : Type) where
  name : String
  alternatives : List (Alternative ε κ)

structure Registry (ε κ : Type) where
  /-- In the order of their names. -/
  types : List (TypeEntry ε κ) := []
  /-- The completers of types as a whole, which go before those of the alternatives. -/
  completers : List (String × κ) := []
  sentences : List (Alternative ε κ) := []

/-- A placeholder whose type is not defined. -/
structure UndefinedReference where
  name : String
  /-- The place of the placeholder in `pattern`. -/
  span : Span
  pattern : String
  deriving DecidableEq, Repr

namespace Registry

variable {ε κ : Type}

instance : Inhabited (Registry ε κ) := ⟨{}⟩

def entry? (registry : Registry ε κ) (name : String) : Option (TypeEntry ε κ) :=
  registry.types.find? fun entry => entry.name = name

def containsType (registry : Registry ε κ) (name : String) : Bool :=
  (registry.entry? name).isSome

/-- The alternatives of a type in the order of their definition; none if it is not defined. -/
def alternatives (registry : Registry ε κ) (name : String) : List (Alternative ε κ) :=
  match registry.entry? name with
  | some entry => entry.alternatives
  | none => []

/-- The completer of a type as a whole. -/
def typeCompleter? (registry : Registry ε κ) (name : String) : Option κ :=
  registry.completers.lookup name

def typeNames (registry : Registry ε κ) : List String := registry.types.map TypeEntry.name

/-- Add an alternative to the type of the given name, which becomes defined if it was not. -/
def addAlternative (name : String) (alternative : Alternative ε κ) :
    List (TypeEntry ε κ) → List (TypeEntry ε κ)
  | [] => [⟨name, [alternative]⟩]
  | entry :: rest =>
    if entry.name = name then
      { entry with alternatives := entry.alternatives ++ [alternative] } :: rest
    else if name < entry.name then ⟨name, [alternative]⟩ :: entry :: rest
    else entry :: addAlternative name alternative rest

/-- Read the pattern of a definition and add it as the last alternative. -/
def define (registry : Registry ε κ) (definition : Definition ε κ) :
    Except PatternError (Registry ε κ) := do
  let pattern ← Pattern.read definition.pattern
  let alternative : Alternative ε κ :=
    ⟨definition.name, pattern, definition.evaluator, definition.completer, definition.insertWhole⟩
  match definition.name with
  | some name =>
    checkTypeName name
    return { registry with types := addAlternative name alternative registry.types }
  | none => return { registry with sentences := registry.sentences ++ [alternative] }

/-- Add an alternative of a type that is evaluated in the given way. -/
def defineType (registry : Registry ε κ) (name pattern : String) (evaluator : ε) :
    Except PatternError (Registry ε κ) :=
  registry.define { name := some name, pattern, evaluator := some evaluator }

/-- Add a sentence that is evaluated in the given way. -/
def defineSentence (registry : Registry ε κ) (pattern : String) (evaluator : ε) :
    Except PatternError (Registry ε κ) :=
  registry.define { name := none, pattern, evaluator := some evaluator }

/-- Take back a type with all its alternatives and its completer. Patterns may still refer to it. -/
def undefine (registry : Registry ε κ) (name : String) : Except UnknownType (Registry ε κ) :=
  if registry.containsType name then
    .ok { registry with
      types := registry.types.filter fun entry => entry.name ≠ name
      completers := registry.completers.filter fun entry => entry.1 ≠ name }
  else .error ⟨name⟩

/-- Give a defined type a completer of its own, in place of the one it has. -/
def setCompleter (registry : Registry ε κ) (name : String) (completer : κ) :
    Except UnknownType (Registry ε κ) :=
  if registry.containsType name then
    .ok { registry with
      completers := (name, completer) :: registry.completers.filter fun entry => entry.1 ≠ name }
  else .error ⟨name⟩

/-- All alternatives: those of the types in the order of their names, then the sentences. -/
def allAlternatives (registry : Registry ε κ) : List (Alternative ε κ) :=
  registry.types.flatMap TypeEntry.alternatives ++ registry.sentences

/-- Every placeholder whose type is not defined, once for each occurrence. -/
def undefinedReferences (registry : Registry ε κ) : List UndefinedReference :=
  registry.allAlternatives.flatMap fun alternative =>
    alternative.pattern.placeholders.filterMap fun slot =>
      match slot.target with
      | .named type =>
        if registry.containsType type then none
        else some ⟨type, slot.span, alternative.pattern.source⟩
      | .builtin _ | .charClass _ => none

/-- One line for each sentence, then one for each alternative of each type. -/
def listing (registry : Registry ε κ) : List String :=
  registry.sentences.map (·.pattern.source) ++
    registry.types.flatMap fun entry =>
      entry.alternatives.map fun alternative => entry.name ++ " := " ++ alternative.pattern.source

def describe (registry : Registry ε κ) : String :=
  "Registry \x7b types: [" ++ ", ".intercalate (registry.typeNames.map Text.quote) ++
    "], sentences: " ++ toString registry.sentences.length ++ ", .. \x7d"

end Registry
end SentenceGrammar
