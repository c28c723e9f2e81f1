import SentenceGrammar.Pattern.Builtin
import SentenceGrammar.Pattern.CharClass
import SentenceGrammar.Pattern.Quantifier
import SentenceGrammar.Text.Span

/-!
# Patterns

A pattern is literal text with placeholders in between. A placeholder has a name, a target that
says what it matches, and a quantifier.
-/
namespace SentenceGrammar

inductive Target where
  | builtin (type : Builtin)
  | charClass (set : CharClass)
  /-- A type of the registry, looked up by its name when a text is matched. -/
  | named (type : String)
  deriving DecidableEq, Repr

def Target.render : Target → String
  | builtin type => type.name
  | charClass set => set.source
  | named type => type

structure Placeholder where
  name : String
  target : Target
  quantifier : Quantifier
  /-- The place in the pattern, braces included. -/
  span : Span
  deriving DecidableEq, Repr

/-- The placeholder as it is written in a pattern. -/
def Placeholder.render (p : Placeholder) : String :=
  let count := if p.quantifier = .one then "" else ":" ++ p.quantifier.render
  "\x7b" ++ p.name ++ ":" ++ p.target.render ++ count ++ "\x7d"

inductive Item where
  /-- Text that is matched as it is, after its escapes were resolved. -/
  | literal (text : String) (span : Span)
  | placeholder (slot : Placeholder)
  deriving DecidableEq, Repr

structure Pattern where
  source : String
  items : List Item
  deriving DecidableEq, Repr

namespace Pattern

def placeholders (pattern : Pattern) : List Placeholder :=
  pattern.items.filterMap fun
    | .placeholder slot => some slot
    | .literal .. => none

/-- The names of registry types that the pattern refers to. -/
def references (pattern : Pattern) : List String :=
  pattern.placeholders.filterMap fun slot =>
    match slot.target with
    | .named type => some type
    | .builtin _ | .charClass _ => none

end Pattern
end SentenceGrammar
