import SentenceGrammar.Decimal.Reader

/-!
# Quantifiers

How often a placeholder's type may repeat: a least count and perhaps a greatest one.
-/
namespace SentenceGrammar

structure Quantifier where
  least : Nat
  /-- Without a greatest count the repetition is unbounded. -/
  most : Option Nat
  deriving DecidableEq, Repr

namespace Quantifier

def one : Quantifier := ⟨1, some 1⟩

/-- Written `?`. -/
def optional : Quantifier := ⟨0, some 1⟩

/-- Written `*`. -/
def zeroOrMore : Quantifier := ⟨0, none⟩

/-- Written `+`. -/
def oneOrMore : Quantifier := ⟨1, none⟩

instance : Inhabited Quantifier := ⟨one⟩

/-- A count: digits that denote a number below `2 ^ 32`. -/
def readCount? (text : List Char) : Option Nat := do
  let count ← Decimal.readDigits? text
  if count ≤ 0xFFFFFFFF then some count else none

/-- Read `?`, `*`, `+`, a count `n` or a range `n-m`. At least one occurrence must be allowed. -/
def read? (text : List Char) : Option Quantifier :=
  match text with
  | ['?'] => some optional
  | ['*'] => some zeroOrMore
  | ['+'] => some oneOrMore
  | _ =>
    match text.dropWhile (· != '-') with
    | [] => do
      let count ← readCount? text
      if 0 < count then some ⟨count, some count⟩ else none
    | _ :: high => do
      let least ← readCount? (text.takeWhile (· != '-'))
      let most ← readCount? high
      if least ≤ most ∧ 0 < most then some ⟨least, some most⟩ else none

def acceptsZero (q : Quantifier) : Bool := q.least == 0

/-- Whether another repetition is allowed after `done` of them. -/
def allowsMore (q : Quantifier) (done : Nat) : Bool :=
  match q.most with
  | none => true
  | some most => done < most

/-- The written form; a single occurrence is written as nothing. -/
def render (q : Quantifier) : String :=
  if q = one then ""
  else if q = optional then "?"
  else if q = zeroOrMore then "*"
  else if q = oneOrMore then "+"
  else match q.most with
    | some most =>
      if q.least = most then toString most else toString q.least ++ "-" ++ toString most
    | none => toString q.least ++ "-"

end Quantifier
end SentenceGrammar
