import SentenceGrammar.Text.Blank

/-!
# Error codes

Every error of the library has a code whose first digit names the phase that found it: 0 for
patterns, 1 for parsing, 2 for the registry and 3 for evaluation.
-/
namespace SentenceGrammar

inductive ErrorCode where
  | unclosedPlaceholder
  | unmatchedClose
  | badName
  | missingType
  | unknownQuantifier
  | malformedClass
  | badTypeName
  | noMatch
  | listenerFailed
  | unknownType
  | unknownVariable
  | invalidNumber
  | typeMismatch
  | evaluatorFailed
  deriving DecidableEq, Repr

namespace ErrorCode

/-- Every code, in the order of their numbers. -/
def all : List ErrorCode :=
  [unclosedPlaceholder, unmatchedClose, badName, missingType, unknownQuantifier, malformedClass,
    badTypeName, noMatch, listenerFailed, unknownType, unknownVariable, invalidNumber,
    typeMismatch, evaluatorFailed]

/-- The code as it is written. -/
def text : ErrorCode → String
  | unclosedPlaceholder => "E0001"
  | unmatchedClose => "E0002"
  | badName => "E0003"
  | missingType => "E0004"
  | unknownQuantifier => "E0005"
  | malformedClass => "E0006"
  | badTypeName => "E0007"
  | noMatch => "E1001"
  | listenerFailed => "E1002"
  | unknownType => "E2001"
  | unknownVariable => "E3001"
  | invalidNumber => "E3002"
  | typeMismatch => "E3003"
  | evaluatorFailed => "E3004"

/-- One line that explains the code. -/
def description : ErrorCode → String
  | unclosedPlaceholder => "a `\x7b` in a pattern is never closed by `\x7d`"
  | unmatchedClose =>
    "a `\x7d` in a pattern has no matching `\x7b`; escape it as `\\\x7d`"
  | badName =>
    "a placeholder needs a variable name of letters, digits, `-` or `_`: `\x7bname:type\x7d`"
  | missingType => "a placeholder needs a type after the name: `\x7bname:type\x7d`"
  | unknownQuantifier => "quantifiers are `?`, `*`, `+`, a count `n` or a range `n-m`"
  | malformedClass => "a character class must look like `[a-zA-Z()]` and be closed"
  | badTypeName =>
    "type names are identifiers of letters, digits, `-` and `_`, and may not shadow a built-in type"
  | noMatch => "the text does not match any defined sentence"
  | listenerFailed => "a parse-start listener failed; the grammar was left unchanged"
  | unknownType => "only defined types can be undefined"
  | unknownVariable => "the requested variable is not bound in this part of the parse tree"
  | invalidNumber => "the matched text is not a valid number"
  | typeMismatch => "the evaluated value has a different type than requested"
  | evaluatorFailed => "an evaluator reported an error"

def upperAscii (c : Char) : Char :=
  if 'a' ≤ c ∧ c ≤ 'z' then Char.ofNat (c.toNat - 32) else c

/-- The code that a text names, in upper or lower case and with white space around it. -/
def ofText? (text : String) : Option ErrorCode :=
  let wanted := String.ofList ((Text.trim text.toList).map upperAscii)
  all.find? fun code => code.text = wanted

/-- What is said about a text that names no code. -/
def unknownMessage (text : String) : String := "unknown error code `" ++ text ++ "`"

end ErrorCode
end SentenceGrammar
