import SentenceGrammar.Diagnostic.Basic
import SentenceGrammar.Pattern.Builtin
import SentenceGrammar.Text.Cursor
import SentenceGrammar.Text.Quoted

/-!
# Failures

A text that cannot be read is reported at the furthest place that any reading got to, with all that
would have been accepted there and the types that were being read.
-/
namespace SentenceGrammar

/-- What would have been accepted at some place. -/
inductive Expected where
  /-- The rest of a literal. -/
  | literal (text : String)
  | builtin (type : Builtin)
  /-- A character of a class, given as it is written. -/
  | charClass (source : String)
  /-- A placeholder refers to a type that is not defined. -/
  | undefinedType (name : String)
  /-- White space between two sentences. -/
  | sentenceBreak
  | endOfInput
  deriving DecidableEq, Repr

def Expected.message : Expected → String
  | literal text => "`" ++ text ++ "`"
  | builtin .float => "a number"
  | builtin .int => "an integer"
  | builtin type => "a " ++ type.name
  | charClass source => "a character in " ++ source
  | undefinedType name => "`" ++ name ++ "` (type is not defined)"
  | sentenceBreak => "whitespace before the next sentence"
  | endOfInput => "end of input"

/-- The text is no script. -/
structure NoMatch where
  position : Nat
  /-- In the order of discovery, without repetitions. -/
  expected : List Expected
  /-- The character at the position; there is none at the end of the text. -/
  found : Option Char
  /-- The types being read at the failure, outermost first. -/
  context : List String
  deriving DecidableEq, Repr

namespace NoMatch

/-- A list of alternatives in words. -/
def enumerate : List Expected → String
  | [] => "a sentence"
  | [only] => only.message
  | several =>
    ", ".intercalate (several.dropLast.map Expected.message) ++
      match several.getLast? with
      | some last => " or " ++ last.message
      | none => ""

def message (failure : NoMatch) : String :=
  let found := match failure.found with
    | some c => ", found `" ++ Text.showChar c ++ "`"
    | none => ", found end of input"
  "expected " ++ enumerate failure.expected ++ found ++ " at offset " ++ toString failure.position

def diagnostic (failure : NoMatch) : Diagnostic where
  code := .noMatch
  message := failure.message
  labels := [⟨Span.ofOffsets failure.position failure.position,
    if failure.found.isSome then "unexpected input" else "input ends here"⟩]
  notes := match failure.context.getLast? with
    | some innermost => ["while matching type `" ++ innermost ++ "`"]
    | none => []

end NoMatch

namespace Matching

/-- The furthest failure so far. -/
structure Failure where
  place : Cursor
  expected : List Expected := []
  context : List String := []

/-- Record what would have been accepted at a place. Only the furthest place counts, and the
context is the one in which it was first reached. -/
def Failure.note (failure : Failure) (context : List String) (place : Cursor)
    (expected : Expected) : Failure :=
  if failure.place.offset < place.offset ∨ failure.expected = [] then
    ⟨place, [expected], context⟩
  else if place.offset = failure.place.offset ∧ expected ∉ failure.expected then
    { failure with expected := failure.expected ++ [expected] }
  else failure

def Failure.report (failure : Failure) : NoMatch :=
  ⟨failure.place.offset, failure.expected, failure.place.rest.head?, failure.context⟩

end Matching
end SentenceGrammar
