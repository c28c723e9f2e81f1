import SentenceGrammar.Text.Quoted

/-!
# Configuration

Choices of a parser that are not part of its grammar: what stands between repeated values, whether
a text may hold several sentences, and how a placeholder is marked in a suggestion.
-/
namespace SentenceGrammar

/-- What stands between the repetitions of a registered or numeric type. -/
inductive Delimiting where
  | adjacent
  | separated (literal : String)
  deriving DecidableEq, Repr, Inhabited

/-- The literal that must stand between two repetitions; an empty one is none. -/
def Delimiting.separator? : Delimiting → Option String
  | adjacent => none
  | separated literal => if literal = "" then none else some literal

def Delimiting.describe : Delimiting → String
  | adjacent => "Adjacent"
  | separated literal => "Separated(" ++ Text.quote literal ++ ")"

structure Config where
  repetition : Delimiting := .adjacent
  /-- Whether one text may hold several sentences with white space in between. -/
  severalSentences : Bool := true
  markerOpen : String := "$\x7b"
  markerClose : String := "\x7d"
  deriving DecidableEq, Repr, Inhabited

namespace Config

/-- How a placeholder of the given name appears in a suggestion. -/
def marker (config : Config) (name : String) : String :=
  config.markerOpen ++ name ++ config.markerClose

def describe (config : Config) : String :=
  "ParserConfig \x7b repetition: " ++ config.repetition.describe ++
    ", allow_multiple_sentences: " ++ toString config.severalSentences ++
    ", placeholder_open: " ++ Text.quote config.markerOpen ++
    ", placeholder_close: " ++ Text.quote config.markerClose ++ " \x7d"

end Config
end SentenceGrammar
