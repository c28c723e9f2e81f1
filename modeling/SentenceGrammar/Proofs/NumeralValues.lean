import SentenceGrammar.Proofs.Numerals
import SentenceGrammar.Proofs.PatternWords

/-!
# Values of numerals

Every numeral of floats has a value. One of integers denotes a number, and it has a value just if
the number is one of 64 bits.
-/
namespace SentenceGrammar

open Text (isAsciiDigit)

namespace Numeral

/-- Digits behind an optional sign, and the number that they denote. -/
inductive DenotesInt : List Char → Int → Prop where
  | unsigned {word : List Char} {value : Nat} (digits : Denotes word value) :
      DenotesInt word value
  | plus {word : List Char} {value : Nat} (digits : Denotes word value) :
      DenotesInt ('+' :: word) value
  | minus {word : List Char} {value : Nat} (digits : Denotes word value) :
      DenotesInt ('-' :: word) (-value)

/-- Digits do not begin with a sign. -/
theorem Denotes.not_sign {c : Char} {word : List Char} {value : Nat}
    (denotes : Denotes (c :: word) value) : c ≠ '-' ∧ c ≠ '+' := by
  have digit := denotes.digits c List.mem_cons_self
  constructor <;> rintro rfl <;> exact absurd digit (by decide)

theorem Denotes.splitSign {word : List Char} {value : Nat} (denotes : Denotes word value) :
    Decimal.splitSign word = (false, word) := by
  unfold Decimal.splitSign
  split
  next => exact absurd rfl denotes.not_sign.1
  next => exact absurd rfl denotes.not_sign.2
  next => rfl

theorem denotesInt_iff {word : List Char} {value : Int} : DenotesInt word value ↔
    ∃ size, Denotes (Decimal.splitSign word).2 size ∧
      value = if (Decimal.splitSign word).1 then -(size : Int) else size := by
  constructor
  · rintro (@⟨word, size, digits⟩ | @⟨word, size, digits⟩ | @⟨word, size, digits⟩)
    · rw [digits.splitSign]
      exact ⟨size, digits, rfl⟩
    · exact ⟨size, digits, rfl⟩
    · exact ⟨size, digits, rfl⟩
  · rintro ⟨size, digits, rfl⟩
    unfold Decimal.splitSign at digits ⊢
    split at digits
    next => exact .minus digits
    next => exact .plus digits
    next => exact .unsigned digits

theorem DenotesInt.unique {word : List Char} {value other : Int} (first : DenotesInt word value)
    (second : DenotesInt word other) : value = other := by
  obtain ⟨size, digits, rfl⟩ := denotesInt_iff.mp first
  obtain ⟨size', digits', rfl⟩ := denotesInt_iff.mp second
  rw [← digits.value_eq, ← digits'.value_eq]

/-- Each integer denotes a number. -/
theorem exists_denotesInt {word : List Char} (numeral : word ∈ integer) :
    ∃ value, DenotesInt word value := by
  obtain ⟨sign, inSign, digits, inDigits, rfl⟩ := Language.mem_mul.mp numeral
  have denotes := Denotes.of_digits inDigits.1 inDigits.2
  rcases inSign with rfl | ⟨c, chosen, rfl⟩
  · exact ⟨_, .unsigned denotes⟩
  · rcases List.mem_pair.mp chosen with rfl | rfl
    · exact ⟨_, .plus denotes⟩
    · exact ⟨_, .minus denotes⟩

end Numeral

namespace Decimal

open Numeral (Denotes DenotesInt startsWithDigit)

/-! ### Integers -/

theorem readInt64?_eq_some_iff {word : List Char} {value : Int} :
    readInt64? word = some value ↔
      DenotesInt word value ∧ leastInt64 ≤ value ∧ value ≤ greatestInt64 := by
  rw [Numeral.denotesInt_iff]
  constructor
  · intro read
    obtain ⟨size, digits, bounded⟩ := Option.bind_eq_some_iff.mp read
    obtain ⟨within, same⟩ := Option.ite_none_right_eq_some.mp bounded
    cases same
    exact ⟨⟨size, readDigits?_eq_some_iff.mp digits, rfl⟩, within⟩
  · rintro ⟨⟨size, digits, rfl⟩, within⟩
    exact Option.bind_eq_some_iff.mpr ⟨size, readDigits?_eq_some_iff.mpr digits, if_pos within⟩

/-- An integer without a value denotes a number that is out of range. -/
theorem out_of_range {word : List Char} (numeral : word ∈ Numeral.integer)
    (none : readInt64? word = none) :
    ∃ value, DenotesInt word value ∧ ¬(leastInt64 ≤ value ∧ value ≤ greatestInt64) := by
  obtain ⟨value, denotes⟩ := Numeral.exists_denotesInt numeral
  refine ⟨value, denotes, fun within => ?_⟩
  rw [readInt64?_eq_some_iff.mpr ⟨denotes, within⟩] at none
  cases none

/-! ### Floats -/

private theorem takeWhile_digits {front back : List Char}
    (digits : ∀ c ∈ front, isAsciiDigit c = true) (other : startsWithDigit back = false) :
    (front ++ back).takeWhile isAsciiDigit = front ∧
      (front ++ back).dropWhile isAsciiDigit = back := by
  rw [List.takeWhile_append_of_pos digits, List.dropWhile_append_of_pos digits]
  cases back with
  | nil => simp
  | cons c back =>
    rw [startsWithDigit] at other
    simp [other]

theorem readExponent?_isSome {word : List Char}
    (numeral : word ∈ Numeral.optional Numeral.exponent) : (readExponent? word).isSome = true := by
  rcases numeral with rfl | ⟨_, ⟨mark, chosen, rfl⟩, rest, integer, rfl⟩
  · rfl
  · obtain ⟨value, denotes⟩ := Numeral.exists_denotesInt integer
    obtain ⟨size, digits, -⟩ := Numeral.denotesInt_iff.mp denotes
    have letter : mark = 'e' ∨ mark = 'E' := List.mem_pair.mp chosen
    change (readExponent? (mark :: rest)).isSome = true
    simp [readExponent?, letter, readDigits?_eq_some_iff.mpr digits]

/-- Behind the digits of a number there is no further digit, and no point. -/
theorem exponent_head {word : List Char} (numeral : word ∈ Numeral.optional Numeral.exponent) :
    startsWithDigit word = false ∧ word.head? ≠ some '.' := by
  rcases numeral with rfl | ⟨_, ⟨mark, chosen, rfl⟩, rest, -, rfl⟩
  · exact ⟨rfl, nofun⟩
  · rcases List.mem_pair.mp chosen with rfl | rfl <;> exact ⟨rfl, by simp⟩

section

variable {whole places back : List Char}

theorem readUnsigned?_whole (inDigits : whole ∈ Numeral.digits)
    (exponent : back ∈ Numeral.optional Numeral.exponent) :
    (readUnsigned? (whole ++ back)).isSome = true := by
  obtain ⟨other, pointless⟩ := exponent_head exponent
  obtain ⟨taken, left⟩ := takeWhile_digits inDigits.2 other
  unfold readUnsigned?
  simp only [taken, left]
  split
  next more => exact absurd rfl pointless
  next =>
    rw [List.append_nil, if_neg inDigits.1, Option.isSome_map]
    exact readExponent?_isSome exponent

theorem readUnsigned?_point (digits : ∀ c ∈ whole ++ places, isAsciiDigit c = true)
    (some : whole ++ places ≠ []) (exponent : back ∈ Numeral.optional Numeral.exponent) :
    (readUnsigned? (whole ++ '.' :: (places ++ back))).isSome = true := by
  rw [List.forall_mem_append] at digits
  obtain ⟨taken, left⟩ := takeWhile_digits digits.1
    (show startsWithDigit ('.' :: (places ++ back)) = false from rfl)
  obtain ⟨takenBehind, leftBehind⟩ := takeWhile_digits digits.2 (exponent_head exponent).1
  unfold readUnsigned?
  simp only [taken, left, takenBehind, leftBehind]
  rw [if_neg some, Option.isSome_map]
  exact readExponent?_isSome exponent

end

theorem splitSign_unsigned (word : List Char) : (splitSign word).2 = Numeral.unsigned word := by
  unfold splitSign
  split
  next => rfl
  next => rfl
  next minus plus =>
    cases word with
    | nil => rfl
    | cons c rest =>
      have other : ¬(c = '+' ∨ c = '-') := by
        rintro (rfl | rfl)
        · exact plus rest rfl
        · exact minus rest rfl
      rw [Numeral.unsigned, if_neg other]

/-- Every float has a value. -/
theorem readFloat?_isSome {word : List Char} (numeral : word ∈ Numeral.float) :
    (readFloat? word).isSome = true := by
  have unsigned : (readUnsigned? (splitSign word).2).isSome = true := by
    rw [splitSign_unsigned]
    obtain ⟨mantissa, inMantissa, back, exponent, same⟩ :=
      Language.mem_mul.mp (Numeral.isUnsignedFloat_iff.mp (Numeral.isFloat_iff.mpr numeral))
    rw [← same]
    rcases inMantissa with inMantissa | inMantissa
    · obtain ⟨whole, inDigits, fraction, inFraction, rfl⟩ := Language.mem_mul.mp inMantissa
      rcases inFraction with rfl | ⟨_, ⟨c, chosen, rfl⟩, places, inPlaces, rfl⟩
      · rw [List.append_nil]
        exact readUnsigned?_whole inDigits exponent
      · obtain rfl := List.mem_singleton.mp chosen
        have digits : ∀ c ∈ whole ++ places, isAsciiDigit c = true :=
          List.forall_mem_append.mpr ⟨inDigits.2, inPlaces.elim (· ▸ nofun) And.right⟩
        simpa using readUnsigned?_point digits
          (List.append_ne_nil_of_left_ne_nil inDigits.1 places) exponent
    · obtain ⟨_, ⟨c, chosen, rfl⟩, places, inDigits, rfl⟩ := Language.mem_mul.mp inMantissa
      obtain rfl := List.mem_singleton.mp chosen
      exact readUnsigned?_point (show ∀ c ∈ [] ++ places, isAsciiDigit c = true from inDigits.2)
        inDigits.1 exponent
  unfold readFloat?
  simp only [Option.isSome_map]
  split
  · rfl
  · split
    · rfl
    · rw [Option.isSome_map]
      exact unsigned

end Decimal
end SentenceGrammar
