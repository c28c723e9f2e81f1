import SentenceGrammar.Pattern.Basic
import SentenceGrammar.Text.Quoted

/-!
# Alternatives

An alternative is one way of writing a type or a sentence. The types `ε` and `κ` stand for the
user's evaluators and completers: an alternative only carries them along.
-/
namespace SentenceGrammar

structure Alternative (ε κ : Type) where
  /-- The type it belongs to; a sentence belongs to none. -/
  owner : Option String
  pattern : Pattern
  evaluator : Option ε
  completer : Option κ
  /-- Whether all of it is suggested at once as long as nothing of it is typed. -/
  insertWhole : Bool
  deriving DecidableEq, Repr

namespace Alternative

variable {ε κ : Type}

def isSentence (alternative : Alternative ε κ) : Bool := alternative.owner.isNone

def describe (alternative : Alternative ε κ) : String :=
  let owner := match alternative.owner with
    | some name => "Some(" ++ Text.quote name ++ ")"
    | none => "None"
  "Alternative \x7b type_name: " ++ owner ++
    ", pattern: " ++ Text.quote alternative.pattern.source ++
    ", evaluator: " ++ toString alternative.evaluator.isSome ++
    ", autocompleter: " ++ toString alternative.completer.isSome ++
    ", insert_whole: " ++ toString alternative.insertWhole ++ " \x7d"

end Alternative
end SentenceGrammar
