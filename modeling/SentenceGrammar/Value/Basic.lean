import SentenceGrammar.Decimal.Notation
import SentenceGrammar.Text.Quoted

/-!
# Values

What evaluating a part of a text yields. Values are dynamically typed because evaluators are
supplied by the user of a grammar. A sealed value is a payload that the grammar passes along
without looking inside, known by its identity.
-/
namespace SentenceGrammar

/-- What a sealed value holds. -/
inductive Payload where
  | number (n : Int)
  | text (s : String)
  deriving DecidableEq, Repr

inductive Value where
  | void
  | bool (b : Bool)
  | int (n : Int)
  | float (x : Float)
  | char (c : Char)
  | str (s : String)
  | list (items : List Value)
  | sealed (identity : Nat) (payload : Payload)
  deriving Inhabited

/-- The types of values. -/
inductive ValueType where
  | void | bool | int | float | char | str | list | sealed
  deriving DecidableEq, Repr

/-- The name of a type in messages. -/
def ValueType.name : ValueType → String
  | void => "void"
  | bool => "bool"
  | int => "int"
  | float => "float"
  | char => "char"
  | str => "str"
  | list => "list"
  | sealed => "opaque"

namespace Value

def type : Value → ValueType
  | void => .void
  | bool _ => .bool
  | int _ => .int
  | float _ => .float
  | char _ => .char
  | str _ => .str
  | list _ => .list
  | sealed .. => .sealed

def isVoid (value : Value) : Bool := value.type = .void

/-- Numbers as floats; integers are rounded to the nearest one. -/
def asFloat? : Value → Option Float
  | float x => some x
  | int n => some (Float.ofInt n)
  | _ => none

def asStr? : Value → Option String
  | str s => some s
  | _ => none

def asList? : Value → Option (List Value)
  | list items => some items
  | _ => none

def payload? : Value → Option Payload
  | sealed _ payload => some payload
  | _ => none

mutual

/-- Equality of values: floats compare as numbers, so one that is not a number differs from
itself, and sealed values are equal only to themselves. -/
def same : Value → Value → Bool
  | void, void => true
  | bool a, bool b => a == b
  | int a, int b => a == b
  | float a, float b => a == b
  | char a, char b => a == b
  | str a, str b => a == b
  | list a, list b => sameAll a b
  | sealed a _, sealed b _ => a == b
  | _, _ => false

def sameAll : List Value → List Value → Bool
  | [], [] => true
  | a :: rest, b :: others => same a b && sameAll rest others
  | _, _ => false

end

mutual

/-- The plain text of a value. -/
def text : Value → String
  | void => "void"
  | bool b => toString b
  | int n => toString n
  | float x => Decimal.plain x
  | char c => c.toString
  | str s => s
  | list items => "[" ++ ", ".intercalate (texts items) ++ "]"
  | sealed .. => "<opaque>"

def texts : List Value → List String
  | [] => []
  | value :: rest => text value :: texts rest

end

mutual

/-- The text of a value that also shows its type; only lists are left without one. -/
def describe : Value → String
  | void => "Void"
  | bool b => "Bool(" ++ toString b ++ ")"
  | int n => "Int(" ++ toString n ++ ")"
  | float x => "Float(" ++ Decimal.plain x ++ ")"
  | char c => "Char(" ++ Text.quoteChar c ++ ")"
  | str s => "Str(" ++ Text.quote s ++ ")"
  | list items => "[" ++ ", ".intercalate (describeAll items) ++ "]"
  | sealed .. => "Opaque(..)"

def describeAll : List Value → List String
  | [] => []
  | value :: rest => describe value :: describeAll rest

end
end Value
end SentenceGrammar
