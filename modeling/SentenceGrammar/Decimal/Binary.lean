/-!
# Binary magnitudes

A finite 64-bit float is, up to its sign, a natural number times a power of two.
-/
namespace SentenceGrammar.Decimal

/-- The magnitude `significand * 2 ^ exponent`. It is a step when the float below is only half as
far away as the float above. -/
structure Binary where
  significand : Nat
  exponent : Int
  isStep : Bool
  deriving DecidableEq, Repr

namespace Binary

/-- The magnitude of a finite float with the given bits. -/
def ofBits (bits : UInt64) : Binary :=
  let biased := ((bits >>> 52) &&& 0x7FF).toNat
  let fraction := (bits &&& 0xFFFFFFFFFFFFF).toNat
  if biased = 0 then ⟨fraction, -1074, false⟩
  else ⟨0x10000000000000 + fraction, (biased : Int) - 1075, fraction = 0 && 1 < biased⟩

/-- The magnitude as a fraction of two naturals. -/
def numerator (x : Binary) : Nat := x.significand * Nat.pow 2 x.exponent.toNat

def denominator (x : Binary) : Nat := Nat.pow 2 (-x.exponent).toNat

/-- The nearest integer, a half going up. -/
def nearest (x : Binary) : Nat := (2 * x.numerator + x.denominator) / (2 * x.denominator)

end Binary

/-- The least and the greatest signed 64-bit integer. -/
def leastInt64 : Int := -0x8000000000000000

def greatestInt64 : Int := 0x7FFFFFFFFFFFFFFF

/-- Whether the sign bit of a float is set. -/
def isNegative (x : Float) : Bool := x.toBits >>> 63 == 1

/-- The integer nearest to a float, a half going away from zero, held at the ends of the 64-bit
range; what is not a number gives zero. -/
def nearestInt64 (x : Float) : Int :=
  if x.isNaN then 0
  else if x.isInf then (if isNegative x then leastInt64 else greatestInt64)
  else
    let magnitude : Int := (Binary.ofBits x.toBits).nearest
    if isNegative x then max (-magnitude) leastInt64 else min magnitude greatestInt64

end SentenceGrammar.Decimal
