import SentenceGrammar.Completion.Decision

/-!
# Advice

Completers written as data.
-/
namespace SentenceGrammar

inductive Advice where
  | veto
  | defer
  /-- Literal options, of which the text of the node was typed already. -/
  | literals (options : List String)
  | placeholder (name : String)
  | suggest (suggestions : List Suggestion)
  /-- One advice if nothing of the node was typed, another one otherwise. -/
  | ifEmpty (yes no : Advice)
  /-- One advice if only the possibility of completion is of interest, another one otherwise. -/
  | ifChecking (yes no : Advice)
  /-- Write the tag, the kind of question and the text of the node to the log, then go on. -/
  | log (tag : String) (advice : Advice)
  deriving DecidableEq, Inhabited

/-- The answer of an advice about a node; `write` adds a line to the log. -/
def Advice.answer {ε κ σ : Type} (write : String → σ → σ) (node : Node ε κ) (checking : Bool) :
    Advice → StateM σ Completion
  | veto => return .veto
  | defer => return .defer
  | literals options => return .literals node options
  | placeholder name => return .placeholder name
  | suggest suggestions => return .suggest suggestions
  | ifEmpty yes no =>
    if node.text = "" then yes.answer write node checking else no.answer write node checking
  | ifChecking yes no =>
    if checking then yes.answer write node checking else no.answer write node checking
  | log tag advice => do
    modify (write (tag ++ ":" ++ toString checking ++ ":" ++ node.text))
    advice.answer write node checking

end SentenceGrammar
