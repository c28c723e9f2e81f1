import SentenceGrammar.Decimal.Shortest

/-!
# Writing floats

A float is written with its shortest digits. The plain form is always positional and writes whole
numbers without a point. The pointed form keeps a point in whole numbers and changes to an
exponent outside of `10 ^ -4 ≤ |x| < 10 ^ 16`.
-/
namespace SentenceGrammar.Decimal

def digitsOf (d : Scaled) : List Char := Nat.toDigits 10 d.digits

/-- The decimal without an exponent. -/
def positional (d : Scaled) : List Char :=
  let digits := digitsOf d
  if 0 ≤ d.exponent then digits ++ List.replicate d.exponent.toNat '0'
  else
    let places := (-d.exponent).toNat
    if places < digits.length then
      digits.take (digits.length - places) ++ '.' :: digits.drop (digits.length - places)
    else '0' :: '.' :: List.replicate (places - digits.length) '0' ++ digits

/-- The decimal with one digit before the point and an exponent. -/
def scientific (d : Scaled) : List Char :=
  let digits := digitsOf d
  let exponent := d.exponent + (digits.length : Int) - 1
  let mantissa := match digits with
    | first :: second :: rest => first :: '.' :: second :: rest
    | short => short
  mantissa ++ 'e' :: (toString exponent).toList

/-- Write a float, given how its finite magnitudes other than zero and its zero are written. -/
def signed (zero : String) (magnitude : Scaled → List Char) (x : Float) : String :=
  if x.isNaN then "NaN"
  else
    let sign := if isNegative x then "-" else ""
    if x.isInf then sign ++ "inf"
    else
      let binary := Binary.ofBits x.toBits
      if binary.significand = 0 then sign ++ zero
      else sign ++ String.ofList (magnitude binary.shortest)

/-- The plain form: `2`, `2.5`, `-0`, and never an exponent. -/
def plain (x : Float) : String := signed "0" positional x

/-- The exponent of the leading digit. -/
def leading (d : Scaled) : Int := d.exponent + ((digitsOf d).length : Int) - 1

/-- The pointed form: `2.0`, `2.5`, `1e16`, `5e-5`. -/
def pointed (x : Float) : String :=
  signed "0.0" (fun d =>
    if leading d < -4 ∨ 16 ≤ leading d then scientific d
    else if 0 ≤ d.exponent then positional d ++ ['.', '0']
    else positional d) x

end SentenceGrammar.Decimal
