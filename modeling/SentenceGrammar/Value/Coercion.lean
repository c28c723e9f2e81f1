import SentenceGrammar.Value.Basic

/-!
# Coercions

A value is accepted at its own type. Besides, an integer is accepted as a float and a character as
a text.
-/
namespace SentenceGrammar

/-- A value did not have the wanted type. -/
structure TypeMismatch where
  expected : ValueType
  found : ValueType
  deriving DecidableEq, Repr

def TypeMismatch.message (mismatch : TypeMismatch) : String :=
  "expected " ++ mismatch.expected.name ++ ", found " ++ mismatch.found.name

namespace Value

def toFloat (value : Value) : Except TypeMismatch Float :=
  match value.asFloat? with
  | some x => .ok x
  | none => .error ⟨.float, value.type⟩

def toInt : Value → Except TypeMismatch Int
  | int n => .ok n
  | value => .error ⟨.int, value.type⟩

def toBool : Value → Except TypeMismatch Bool
  | bool b => .ok b
  | value => .error ⟨.bool, value.type⟩

def toChar : Value → Except TypeMismatch Char
  | char c => .ok c
  | value => .error ⟨.char, value.type⟩

def toStr : Value → Except TypeMismatch String
  | str s => .ok s
  | char c => .ok c.toString
  | value => .error ⟨.str, value.type⟩

def toList : Value → Except TypeMismatch (List Value)
  | list items => .ok items
  | value => .error ⟨.list, value.type⟩

def toUnit : Value → Except TypeMismatch Unit
  | void => .ok ()
  | value => .error ⟨.void, value.type⟩

/-- The value at the wanted type. -/
def coerce (wanted : ValueType) (value : Value) : Except TypeMismatch Value :=
  match wanted with
  | .float => float <$> value.toFloat
  | .int => int <$> value.toInt
  | .bool => bool <$> value.toBool
  | .char => char <$> value.toChar
  | .str => str <$> value.toStr
  | .list => list <$> value.toList
  | .void => (fun _ => void) <$> value.toUnit
  | .sealed => if value.type = .sealed then .ok value else .error ⟨.sealed, value.type⟩

end Value
end SentenceGrammar
