import SentenceGrammar.Diagnostic.Code
import SentenceGrammar.Text.Span

/-!
# Diagnostics

The report that every error turns into: a code, one line of message, the places it points at and
further notes.
-/
namespace SentenceGrammar

/-- A place in the text with what is wrong there. -/
structure Label where
  span : Span
  message : String
  deriving DecidableEq, Repr

structure Diagnostic where
  code : ErrorCode
  message : String
  labels : List Label := []
  notes : List String := []
  deriving DecidableEq, Repr

/-- The first line of the report. -/
def Diagnostic.headline (diagnostic : Diagnostic) : String :=
  "error[" ++ diagnostic.code.text ++ "]: " ++ diagnostic.message

end SentenceGrammar
