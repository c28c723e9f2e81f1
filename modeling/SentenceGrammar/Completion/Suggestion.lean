import SentenceGrammar.Grammar.Config
import SentenceGrammar.Tree.Node

/-!
# Suggestions

A suggestion completes what was typed of some part of the grammar. A completer answers with
suggestions, forbids all of them, or leaves the decision to the nodes further in.
-/
namespace SentenceGrammar

inductive SuggestionKind where
  /-- Text to be typed as it is. -/
  | literal
  /-- A marker in place of a value. -/
  | placeholder
  /-- A whole alternative with markers for its placeholders. -/
  | sequence
  deriving DecidableEq, Repr

structure Suggestion where
  /-- The text of the whole completed part. -/
  completion : String
  /-- What was typed of it already. -/
  entered : String
  /-- The bytes of the completion to be selected once it is inserted. -/
  selection : Option (Nat × Nat)
  kind : SuggestionKind
  deriving DecidableEq, Repr

namespace Suggestion

def literal (completion entered : String) : Suggestion := ⟨completion, entered, none, .literal⟩

/-- A marker, which is selected as a whole so that typing replaces it. -/
def placeholder (marker : String) : Suggestion :=
  ⟨marker, "", some (0, marker.utf8ByteSize), .placeholder⟩

/-- What is left to be inserted. -/
def remainder (suggestion : Suggestion) : String :=
  match suggestion.entered.toList.isPrefixOf? suggestion.completion.toList with
  | some rest => String.ofList rest
  | none => suggestion.completion

/-- What is left to be inserted, with the whole completion behind it if some of it was typed. -/
def render (suggestion : Suggestion) : String :=
  if suggestion.entered = "" then suggestion.completion
  else suggestion.remainder ++ "\t(" ++ suggestion.completion ++ ")"

/-- The items of an alternative, its placeholders as markers and the first of them selected. -/
def whole (config : Config) (items : List Item) : Suggestion :=
  let (completion, selection) := items.foldl extend ("", none)
  ⟨completion, "", selection, .sequence⟩
where
  extend : String × Option (Nat × Nat) → Item → String × Option (Nat × Nat)
    | (text, selection), .literal more _ => (text ++ more, selection)
    | (text, selection), .placeholder slot =>
      let longer := text ++ config.marker slot.name
      (longer, some (selection.getD (text.utf8ByteSize, longer.utf8ByteSize)))

end Suggestion

/-- The answer of a completer. -/
inductive Completion where
  | suggest (suggestions : List Suggestion)
  /-- A marker for the value of the given name. -/
  | placeholder (name : String)
  /-- Nothing may be suggested here. -/
  | veto
  /-- The nodes further in decide. -/
  | defer
  deriving DecidableEq, Repr

/-- Literal options for a node, of which its text was typed already. -/
def Completion.literals {ε κ : Type} (node : Node ε κ) (options : List String) : Completion :=
  .suggest (options.map fun option => .literal option node.text)

end SentenceGrammar
