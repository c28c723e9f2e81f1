import SentenceGrammar.Diagnostic.Basic
import SentenceGrammar.Value.Coercion

/-!
# Failures of evaluation
-/
namespace SentenceGrammar

inductive EvalError where
  /-- No variable of that name below the node with the text `parent`. -/
  | unknownVariable (name parent : String) (span : Span)
  /-- A text that was read as a number has no value of its type. -/
  | invalidNumber (text : String) (type : ValueType) (span : Span)
  | typeMismatch (name : String) (mismatch : TypeMismatch)
  /-- An evaluator gave up. -/
  | failed (message : String)
  deriving DecidableEq, Repr

namespace EvalError

def code : EvalError → ErrorCode
  | unknownVariable .. => .unknownVariable
  | invalidNumber .. => .invalidNumber
  | typeMismatch .. => .typeMismatch
  | failed _ => .evaluatorFailed

def message : EvalError → String
  | unknownVariable name parent _ => "no variable `" ++ name ++ "` below `" ++ parent ++ "`"
  | invalidNumber text type _ => "`" ++ text ++ "` is not a valid " ++ type.name
  | typeMismatch name mismatch => "variable `" ++ name ++ "`: " ++ mismatch.message
  | failed message => message

def diagnostic (error : EvalError) : Diagnostic where
  code := error.code
  message := error.message
  labels := match error with
    | unknownVariable _ _ span => [⟨span, "looked up here"⟩]
    | invalidNumber _ _ span => [⟨span, "this number"⟩]
    | typeMismatch .. | failed _ => []

end EvalError

/-- What evaluating a node yields. -/
abbrev Outcome := Except EvalError Value

end SentenceGrammar
