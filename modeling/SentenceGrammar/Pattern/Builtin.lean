import SentenceGrammar.Text.Blank
import SentenceGrammar.Text.Letter

/-!
# Built-in types

The types that every grammar has: two kinds of numbers and three kinds of single characters.
-/
namespace SentenceGrammar

inductive Builtin where
  | float | int | digit | letter | whitespace
  deriving DecidableEq, Repr

namespace Builtin

def all : List Builtin := [float, int, digit, letter, whitespace]

/-- The name of the type in patterns. -/
def name : Builtin → String
  | float => "float"
  | int => "int"
  | digit => "digit"
  | letter => "letter"
  | whitespace => "whitespace"

def ofName? (text : String) : Option Builtin := all.find? fun b => b.name = text

def isNumeric : Builtin → Bool
  | float | int => true
  | digit | letter | whitespace => false

/-- The characters of a single-character type. -/
def accepts? : Builtin → Option (Char → Bool)
  | digit => some Text.isAsciiDigit
  | letter => some Text.isLetter
  | whitespace => some Text.isBlank
  | float | int => none

end Builtin
end SentenceGrammar
