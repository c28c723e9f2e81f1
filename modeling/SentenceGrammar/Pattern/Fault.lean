import SentenceGrammar.Diagnostic.Basic
import SentenceGrammar.Pattern.CharClass

/-!
# Faults of patterns

Why a text is no pattern or no type name, and where in it the fault lies.
-/
namespace SentenceGrammar

inductive PatternCause where
  | unclosedPlaceholder
  | unmatchedClose
  | emptyName
  | invalidName (name : String)
  | emptyType (placeholder : String)
  | unknownQuantifier (text : String)
  | malformedClass (fault : ClassFault)
  | invalidTypeName (name : String)
  | reservedTypeName (name : String)
  deriving DecidableEq, Repr

namespace PatternCause

def code : PatternCause → ErrorCode
  | unclosedPlaceholder => .unclosedPlaceholder
  | unmatchedClose => .unmatchedClose
  | emptyName | invalidName _ => .badName
  | emptyType _ => .missingType
  | unknownQuantifier _ => .unknownQuantifier
  | malformedClass _ => .malformedClass
  | invalidTypeName _ | reservedTypeName _ => .badTypeName

def message : PatternCause → String
  | unclosedPlaceholder => "unclosed placeholder: `\x7b` has no matching `\x7d`"
  | unmatchedClose => "unmatched `\x7d` outside of a placeholder"
  | emptyName => "placeholder has no variable name"
  | invalidName name => "invalid variable name `" ++ name ++ "`"
  | emptyType placeholder => "placeholder `" ++ placeholder ++ "` has no type"
  | unknownQuantifier text => "unknown quantifier `" ++ text ++ "`"
  | malformedClass fault => "malformed character class: " ++ fault.message
  | invalidTypeName name => "invalid type name `" ++ name ++ "`"
  | reservedTypeName name => "`" ++ name ++ "` is a built-in type and cannot be redefined"

/-- What the label at the fault says. -/
def label : PatternCause → String
  | unclosedPlaceholder => "placeholder opened here"
  | unmatchedClose => "no `\x7b` before this"
  | unknownQuantifier _ => "expected `?`, `*`, `+`, `n` or `n-m`"
  | _ => "here"

end PatternCause

structure PatternError where
  cause : PatternCause
  /-- The place in `source`. -/
  span : Span
  source : String
  deriving DecidableEq, Repr

namespace PatternError

def code (error : PatternError) : ErrorCode := error.cause.code

def message (error : PatternError) : String :=
  error.cause.message ++ " in pattern `" ++ error.source ++ "`"

def diagnostic (error : PatternError) : Diagnostic where
  code := error.code
  message := error.cause.message
  labels := [⟨error.span, error.cause.label⟩]
  notes := [error.code.description]

end PatternError
end SentenceGrammar
