import SentenceGrammar.Decimal.Binary
import SentenceGrammar.Text.Letter

/-!
# Reading numbers

Integers are an optional sign and digits, within the range of their type. Floats are an optional
sign and then digits with an optional point and exponent, or one of the words `inf`, `infinity`
and `nan` in any case.
-/
namespace SentenceGrammar.Decimal

open Text (isAsciiDigit)

def digitValue (c : Char) : Nat := c.toNat - '0'.toNat

/-- The number that a row of digits denotes. -/
def digitsValue (digits : List Char) : Nat :=
  digits.foldl (fun value c => 10 * value + digitValue c) 0

/-- A row of at least one digit and nothing else. -/
def readDigits? (text : List Char) : Option Nat :=
  if text ≠ [] ∧ text.all isAsciiDigit then some (digitsValue text) else none

/-- An optional sign in front of a text: whether it is a minus, and the text behind it. -/
def splitSign : List Char → Bool × List Char
  | '-' :: rest => (true, rest)
  | '+' :: rest => (false, rest)
  | text => (false, text)

/-- Read a signed 64-bit integer. -/
def readInt64? (text : List Char) : Option Int := do
  let (negative, digits) := splitSign text
  let size ← readDigits? digits
  let value : Int := if negative then -(size : Int) else size
  if leastInt64 ≤ value ∧ value ≤ greatestInt64 then some value else none

/-- Read an unsigned 64-bit integer, which may have a plus sign but no minus sign. -/
def readNat64? (text : List Char) : Option Nat := do
  let (negative, digits) := splitSign text
  let value ← readDigits? digits
  if !negative && value ≤ 0xFFFFFFFFFFFFFFFF then some value else none

/-- A decimal read from a text: `digits * 10 ^ exponent`, with the count of digits. -/
structure Reading where
  digits : Nat
  count : Nat
  exponent : Int
  deriving DecidableEq, Repr

/-- An exponent mark with its integer, or nothing at all. -/
def readExponent? : List Char → Option Int
  | [] => some 0
  | mark :: rest =>
    if mark = 'e' ∨ mark = 'E' then
      let (negative, digits) := splitSign rest
      (readDigits? digits).map fun size => if negative then -(size : Int) else size
    else none

/-- Digits with an optional point, and an optional exponent. At least one digit must stand before
the exponent. -/
def readUnsigned? (text : List Char) : Option Reading :=
  let whole := text.takeWhile isAsciiDigit
  let rest := text.dropWhile isAsciiDigit
  let (places, tail) := match rest with
    | '.' :: more => (more.takeWhile isAsciiDigit, more.dropWhile isAsciiDigit)
    | _ => ([], rest)
  let digits := whole ++ places
  if digits = [] then none
  else (readExponent? tail).map fun power =>
    ⟨digitsValue digits, digits.length, power - places.length⟩

def infinity : Float := 1.0 / 0.0

def notANumber : Float := 0.0 / 0.0

/-- The float nearest to a decimal. Decimals at or above `10 ^ 310` overflow and those below
`10 ^ -400` vanish whatever their digits are. -/
def Reading.toFloat (d : Reading) : Float :=
  if d.digits = 0 then 0.0
  else if 310 + (d.count : Int) < d.exponent then infinity
  else if d.exponent + d.count < -400 then 0.0
  else Float.ofScientific d.digits (d.exponent < 0) d.exponent.natAbs

def lowerAscii (c : Char) : Char :=
  if 'A' ≤ c ∧ c ≤ 'Z' then Char.ofNat (c.toNat + 32) else c

/-- Read a float, rounding to the nearest one. -/
def readFloat? (text : List Char) : Option Float :=
  let (negative, rest) := splitSign text
  let word := String.ofList (rest.map lowerAscii)
  let magnitude :=
    if word = "inf" ∨ word = "infinity" then some infinity
    else if word = "nan" then some notANumber
    else (readUnsigned? rest).map Reading.toFloat
  magnitude.map fun x => if negative then -x else x

end SentenceGrammar.Decimal
