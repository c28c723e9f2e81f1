import SentenceGrammar.Decimal.Binary

/-!
# Shortest decimals

Each float stands for the interval of reals that round to it. Among the decimals of that interval
the shortest are those with the fewest digits, and of those the one nearest to the float is taken,
the upper one when two are equally near.
-/
namespace SentenceGrammar.Decimal

/-- The decimal `digits * 10 ^ exponent`. -/
structure Scaled where
  digits : Nat
  exponent : Int
  deriving DecidableEq, Repr

namespace Scaled

/-- Compare the decimal with `n * 2 ^ power`. -/
def compareBinary (d : Scaled) (n : Nat) (power : Int) : Ordering :=
  compare (d.digits * Nat.pow 10 d.exponent.toNat * Nat.pow 2 (-power).toNat)
    (n * Nat.pow 2 power.toNat * Nat.pow 10 (-d.exponent).toNat)

/-- Move trailing zeros of the digits into the exponent. -/
def trimmed : Nat → Scaled → Scaled
  | 0, d => d
  | steps + 1, d =>
    if d.digits ≠ 0 ∧ d.digits % 10 = 0 then trimmed steps ⟨d.digits / 10, d.exponent + 1⟩ else d

end Scaled

/-- Whether reading the decimal gives the float back: it lies between the midpoints to the two
neighbours, and on one of them only if the significand is even. -/
def Binary.readsBack (x : Binary) (d : Scaled) : Bool :=
  let low := if x.isStep then 4 * x.significand - 1 else 4 * x.significand - 2
  let high := 4 * x.significand + 2
  let closed := x.significand % 2 == 0
  let fromLow := d.compareBinary low (x.exponent - 2)
  let fromHigh := d.compareBinary high (x.exponent - 2)
  (fromLow == .gt || (closed && fromLow == .eq)) && (fromHigh == .lt || (closed && fromHigh == .eq))

/-- The least `k` with the magnitude below `10 ^ k`, for a magnitude that is not zero. Shifted by
340 places even the least float is above one, so its integer part has all the places. -/
def Binary.scale (x : Binary) : Int :=
  ((Nat.toDigits 10 (x.numerator * Nat.pow 10 340 / x.denominator)).length : Int) - 340

/-- The magnitude divided by `10 ^ unit`, rounded down. -/
def Binary.unitsBelow (x : Binary) (unit : Int) : Nat :=
  x.numerator * Nat.pow 10 (-unit).toNat / (x.denominator * Nat.pow 10 unit.toNat)

/-- The decimal with the given last place that is nearest among those that read back. -/
def Binary.atPlace (x : Binary) (unit : Int) : Option Scaled :=
  let low : Scaled := ⟨x.unitsBelow unit, unit⟩
  let high : Scaled := ⟨x.unitsBelow unit + 1, unit⟩
  match x.readsBack low, x.readsBack high with
  | true, true =>
    let sum : Scaled := ⟨low.digits + high.digits, unit⟩
    if sum.compareBinary x.significand (x.exponent + 1) == .gt then some low else some high
  | true, false => some low
  | false, true => some high
  | false, false => none

/-- The shortest decimal of a magnitude that is not zero. Seventeen digits always read back. -/
def Binary.shortest (x : Binary) : Scaled :=
  let scale := x.scale
  match (List.range 17).findSome? fun (n : Nat) => x.atPlace (scale - (n : Int) - 1) with
  | some found => found.trimmed 17
  | none => ⟨x.unitsBelow x.exponent, x.exponent⟩

end SentenceGrammar.Decimal
