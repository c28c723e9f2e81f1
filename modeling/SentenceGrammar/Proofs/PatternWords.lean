import Mathlib.Data.List.Induction
import Mathlib.Data.List.TakeWhile
import SentenceGrammar.Pattern.Reader

/-!
# The words in placeholders

Names and quantifiers are the words in a placeholder. White space around them means nothing, and
none of their characters has a meaning of its own in a pattern.
-/
namespace SentenceGrammar

open Text (isBlank isAsciiDigit isAlphanumeric)

/-! ### White space around words -/

/-- The characters that have a meaning of their own in a placeholder. -/
def delimiters : List Char := [':', '{', '}', '[']

/-- What fails for all of them fails for each. -/
private theorem false_of_delimiter {p : Char → Bool} (outside : (delimiters.all fun c => !p c) = true)
    {c : Char} (member : c ∈ delimiters) : p c = false := by
  simpa using List.all_eq_true.mp outside c member

/-- The word with white space around it. -/
inductive Padded (word : List Char) : List Char → Prop where
  | intro {front back : List Char} (before : ∀ c ∈ front, isBlank c = true)
      (behind : ∀ c ∈ back, isBlank c = true) : Padded word (front ++ word ++ back)

/-- There is something in the word, and none of it is white space. -/
structure Solid (word : List Char) : Prop where
  some : word ≠ []
  unblank : ∀ c ∈ word, isBlank c = false

theorem Solid.reverse {word : List Char} (solid : Solid word) : Solid word.reverse :=
  ⟨by simpa using solid.some, by simpa using solid.unblank⟩

/-- The white space in front of a word is dropped, whatever is behind it. -/
theorem Solid.dropWhile_blank {word front : List Char} (solid : Solid word)
    (before : ∀ c ∈ front, isBlank c = true) (back : List Char) :
    (front ++ (word ++ back)).dropWhile isBlank = word ++ back := by
  rw [List.dropWhile_append_of_pos before]
  obtain ⟨c, rest, rfl⟩ := List.exists_cons_of_ne_nil solid.some
  rw [List.cons_append, List.dropWhile_cons_of_neg (by simp [solid.unblank c])]

theorem Solid.trim_eq {word text : List Char} (solid : Solid word) (padded : Padded word text) :
    Text.trim text = word := by
  obtain @⟨front, back, before, behind⟩ := padded
  -- Behind the word the reversed text is trimmed, which has the reversed word in it.
  have reversed : (word ++ back).reverse = back.reverse ++ (word.reverse ++ []) := by simp
  rw [Text.trim, List.append_assoc, solid.dropWhile_blank before, reversed,
    solid.reverse.dropWhile_blank (by simpa using behind), List.append_nil, List.reverse_reverse]

theorem padded_trim (text : List Char) : Padded (Text.trim text) text := by
  have parts : text.takeWhile isBlank ++ Text.trim text ++
      ((text.dropWhile isBlank).reverse.takeWhile isBlank).reverse = text := by
    rw [Text.trim, List.append_assoc, ← List.reverse_append, List.takeWhile_append_dropWhile,
      List.reverse_reverse, List.takeWhile_append_dropWhile]
  have blank (chars : List Char) : ∀ c ∈ chars.takeWhile isBlank, isBlank c = true :=
    List.all_eq_true.mp List.all_takeWhile
  have padded : Padded (Text.trim text) (text.takeWhile isBlank ++ Text.trim text ++
      ((text.dropWhile isBlank).reverse.takeWhile isBlank).reverse) :=
    .intro (blank _) (by simpa using blank _)
  rwa [parts] at padded

/-- What holds of white space and of all characters of a word holds of the padded word. -/
theorem Padded.all {word text : List Char} (padded : Padded word text) {p : Char → Prop}
    (blank : ∀ c, isBlank c = true → p c) (inside : ∀ c ∈ word, p c) : ∀ c ∈ text, p c := by
  obtain ⟨before, behind⟩ := padded
  intro c member
  simp only [List.mem_append] at member
  rcases member with (front | among) | back
  · exact blank c (before c front)
  · exact inside c among
  · exact blank c (behind c back)

/-- White space is no delimiter, so there is one in the padded word only if there is one in the
word. -/
theorem Padded.plain {word text : List Char} (padded : Padded word text)
    (plain : ∀ c ∈ word, c ∉ delimiters) : ∀ c ∈ text, c ∉ delimiters := by
  refine padded.all (fun c blank delimiter => ?_) plain
  have unblank : isBlank c = false := false_of_delimiter (by decide +kernel) delimiter
  exact Bool.false_ne_true (unblank.symm.trans blank)

theorem Padded.refl (word : List Char) : Padded word word := by
  have padded : Padded word ([] ++ word ++ []) := .intro nofun nofun
  simpa using padded

/-! ### Names -/

/-- A run of letters, numerals, hyphens and underscores, at least one of them. -/
def Identifier (name : List Char) : Prop :=
  name ≠ [] ∧ ∀ c ∈ name, isAlphanumeric c = true ∨ c = '-' ∨ c = '_'

theorem isIdentifier_iff {name : List Char} : isIdentifier name = true ↔ Identifier name := by
  simp [isIdentifier, Identifier, or_assoc]

/-- The code points with the property White_Space. -/
private def blankCodes : List Nat :=
  [9, 10, 11, 12, 13, 0x20, 0x85, 0xA0, 0x1680, 0x2000, 0x2001, 0x2002, 0x2003, 0x2004, 0x2005,
    0x2006, 0x2007, 0x2008, 0x2009, 0x200A, 0x2028, 0x2029, 0x202F, 0x205F, 0x3000]

/-- What fails for all of these code points fails for white space. -/
private theorem false_of_blank {p : Char → Bool}
    (outside : (blankCodes.all fun n => !p (Char.ofNat n)) = true) {c : Char}
    (blank : isBlank c = true) : p c = false := by
  have listed : c.toNat ∈ blankCodes := by
    simp only [isBlank, Bool.or_eq_true, Bool.and_eq_true, decide_eq_true_eq, beq_iff_eq] at blank
    simp only [blankCodes, List.mem_cons, List.not_mem_nil, or_false]
    omega
  simpa using List.all_eq_true.mp outside c.toNat listed

theorem not_alphanumeric_of_blank {c : Char} (blank : isBlank c = true) :
    isAlphanumeric c = false :=
  false_of_blank (by decide +kernel) blank

theorem not_digit_of_blank {c : Char} (blank : isBlank c = true) : isAsciiDigit c = false :=
  false_of_blank (by decide +kernel) blank

theorem Identifier.solid {name : List Char} (identifier : Identifier name) : Solid name where
  some := identifier.1
  unblank c member := by
    cases blank : isBlank c with
    | false => rfl
    | true =>
      rcases identifier.2 c member with letter | rfl | rfl
      · simp [not_alphanumeric_of_blank blank] at letter
      · exact blank.symm
      · exact blank.symm

theorem Identifier.plain {name : List Char} (identifier : Identifier name) :
    ∀ c ∈ name, c ∉ delimiters := by
  intro c member delimiter
  rcases identifier.2 c member with letter | rfl | rfl
  · have other : isAlphanumeric c = false := false_of_delimiter (by decide +kernel) delimiter
    exact Bool.false_ne_true (other.symm.trans letter)
  · exact absurd delimiter (by decide)
  · exact absurd delimiter (by decide)

theorem Builtin.identifier (type : Builtin) : Identifier type.name.toList := by
  rw [← isIdentifier_iff]
  cases type <;> decide +kernel

theorem Builtin.ofName?_eq_some_iff {text : String} {type : Builtin} :
    ofName? text = some type ↔ type.name = text := by
  constructor
  · intro found
    simpa using List.find?_some found
  · rintro rfl
    cases type <;> decide +kernel

/-! ### Quantifiers -/

/-- Digits and the number that they denote. -/
inductive Numeral.Denotes : List Char → Nat → Prop where
  | digit {c : Char} (digit : isAsciiDigit c = true) : Denotes [c] (Decimal.digitValue c)
  | append {front : List Char} {value : Nat} {c : Char} (digits : Denotes front value)
      (digit : isAsciiDigit c = true) : Denotes (front ++ [c]) (10 * value + Decimal.digitValue c)

/-- The written forms of a quantifier. Counts are below `2 ^ 32`. -/
inductive QuantifierText : List Char → Quantifier → Prop where
  | optional : QuantifierText ['?'] .optional
  | zeroOrMore : QuantifierText ['*'] .zeroOrMore
  | oneOrMore : QuantifierText ['+'] .oneOrMore
  | exactly {text : List Char} {count : Nat} (numeral : Numeral.Denotes text count)
      (positive : 1 ≤ count) (bounded : count < 0x100000000) : QuantifierText text ⟨count, some count⟩
  | between {low high : List Char} {least most : Nat} (lower : Numeral.Denotes low least)
      (upper : Numeral.Denotes high most) (ordered : least ≤ most) (positive : 1 ≤ most)
      (bounded : most < 0x100000000) : QuantifierText (low ++ '-' :: high) ⟨least, some most⟩

namespace Numeral.Denotes

variable {text : List Char} {value : Nat}

theorem some (denotes : Denotes text value) : text ≠ [] := by
  cases denotes <;> simp

theorem digits (denotes : Denotes text value) : ∀ c ∈ text, isAsciiDigit c = true := by
  induction denotes with
  | digit digit => simpa using digit
  | append _ digit ih =>
    intro c member
    rcases List.mem_append.mp member with front | last
    · exact ih c front
    · exact List.mem_singleton.mp last ▸ digit

theorem unhyphened (denotes : Denotes text value) : ∀ c ∈ text, (c != '-') = true := by
  intro c member
  have digit := denotes.digits c member
  rw [bne_iff_ne]
  rintro rfl
  exact absurd digit (by decide)

theorem value_eq (denotes : Denotes text value) : Decimal.digitsValue text = value := by
  induction denotes with
  | digit => simp [Decimal.digitsValue]
  | append _ _ ih =>
    rw [Decimal.digitsValue, List.foldl_append, ← Decimal.digitsValue, ih]
    rfl

theorem of_digits (some : text ≠ []) (digits : ∀ c ∈ text, isAsciiDigit c = true) :
    Denotes text (Decimal.digitsValue text) := by
  -- The value is a fold from the left, so the last digit is the outermost step.
  induction text using List.reverseRecOn with
  | nil => exact absurd rfl some
  | append_singleton front c ih =>
    have last : isAsciiDigit c = true := digits c (by simp)
    by_cases first : front = []
    · subst first
      simpa [Decimal.digitsValue] using Denotes.digit last
    · rw [Decimal.digitsValue, List.foldl_append]
      exact .append (ih first fun d member => digits d (by simp [member])) last

end Numeral.Denotes

theorem Decimal.readDigits?_eq_some_iff {text : List Char} {value : Nat} :
    readDigits? text = some value ↔ Numeral.Denotes text value := by
  rw [readDigits?, Option.ite_none_right_eq_some, Option.some.injEq, List.all_eq_true]
  constructor
  · rintro ⟨⟨some, digits⟩, rfl⟩
    exact .of_digits some digits
  · exact fun denotes => ⟨⟨denotes.some, denotes.digits⟩, denotes.value_eq⟩

theorem Quantifier.readCount?_eq_some_iff {text : List Char} {count : Nat} :
    readCount? text = some count ↔ Numeral.Denotes text count ∧ count < 0x100000000 := by
  constructor
  · intro read
    obtain ⟨value, digits, bounded⟩ := Option.bind_eq_some_iff.mp read
    obtain ⟨below, same⟩ := Option.ite_none_right_eq_some.mp bounded
    obtain rfl := Option.some.inj same
    exact ⟨Decimal.readDigits?_eq_some_iff.mp digits, Nat.lt_succ_of_le below⟩
  · rintro ⟨denotes, bounded⟩
    exact Option.bind_eq_some_iff.mpr
      ⟨count, Decimal.readDigits?_eq_some_iff.mpr denotes, if_pos (Nat.le_of_lt_succ bounded)⟩

theorem QuantifierText.of_read {text : List Char} {quantifier : Quantifier}
    (read : Quantifier.read? text = some quantifier) : QuantifierText text quantifier := by
  unfold Quantifier.read? at read
  split at read
  next => exact Option.some.inj read ▸ .optional
  next => exact Option.some.inj read ▸ .zeroOrMore
  next => exact Option.some.inj read ▸ .oneOrMore
  next =>
    split at read
    next =>
      obtain ⟨count, counted, bounded⟩ := Option.bind_eq_some_iff.mp read
      obtain ⟨positive, same⟩ := Option.ite_none_right_eq_some.mp bounded
      obtain ⟨numeral, small⟩ := Quantifier.readCount?_eq_some_iff.mp counted
      exact Option.some.inj same ▸ .exactly numeral positive small
    next hyphen high found =>
      obtain ⟨least, lower, further⟩ := Option.bind_eq_some_iff.mp read
      obtain ⟨most, upper, bounded⟩ := Option.bind_eq_some_iff.mp further
      obtain ⟨⟨ordered, positive⟩, same⟩ := Option.ite_none_right_eq_some.mp bounded
      obtain ⟨low, -⟩ := Quantifier.readCount?_eq_some_iff.mp lower
      obtain ⟨high, small⟩ := Quantifier.readCount?_eq_some_iff.mp upper
      -- The text is cut at its first hyphen.
      have first := List.head?_dropWhile_not (· != '-') text
      obtain rfl : hyphen = '-' := by simpa [found] using first
      have parts := List.takeWhile_append_dropWhile (p := (· != '-')) (l := text)
      rw [found] at parts
      have written := QuantifierText.between low high ordered positive small
      rw [parts] at written
      exact Option.some.inj same ▸ written

theorem QuantifierText.read {text : List Char} {quantifier : Quantifier}
    (written : QuantifierText text quantifier) : Quantifier.read? text = some quantifier := by
  cases written with
  | optional => rfl
  | zeroOrMore => rfl
  | oneOrMore => rfl
  | @exactly _ count numeral positive bounded =>
    -- A digit is no sign, and without a hyphen all of the text is the count.
    have single : text.dropWhile (· != '-') = [] :=
      List.dropWhile_eq_nil_iff.mpr numeral.unhyphened
    unfold Quantifier.read?
    split
    next => exact absurd (numeral.digits _ List.mem_cons_self) (by decide)
    next => exact absurd (numeral.digits _ List.mem_cons_self) (by decide)
    next => exact absurd (numeral.digits _ List.mem_cons_self) (by decide)
    next =>
      rw [single]
      exact Option.bind_eq_some_iff.mpr
        ⟨count, Quantifier.readCount?_eq_some_iff.mpr ⟨numeral, bounded⟩, if_pos positive⟩
  | @between low high least most lower upper ordered positive bounded =>
    have front : (low ++ '-' :: high).takeWhile (· != '-') = low := by
      rw [List.takeWhile_append_of_pos lower.unhyphened]
      simp
    have back : (low ++ '-' :: high).dropWhile (· != '-') = '-' :: high := by
      rw [List.dropWhile_append_of_pos lower.unhyphened]
      simp
    -- The three signs are single characters.
    have long : 1 < (low ++ '-' :: high).length := by
      have some := List.length_pos_iff.mpr lower.some
      simp only [List.length_append, List.length_cons]
      omega
    unfold Quantifier.read?
    split
    next same => simp [same] at long
    next same => simp [same] at long
    next same => simp [same] at long
    next =>
      rw [back, front]
      refine Option.bind_eq_some_iff.mpr ⟨least, Quantifier.readCount?_eq_some_iff.mpr
        ⟨lower, Nat.lt_of_le_of_lt ordered bounded⟩, ?_⟩
      exact Option.bind_eq_some_iff.mpr ⟨most, Quantifier.readCount?_eq_some_iff.mpr
        ⟨upper, bounded⟩, if_pos ⟨ordered, positive⟩⟩

/-- The characters of quantifiers other than digits. -/
def signs : List Char := ['?', '*', '+', '-']

theorem not_sign_of_blank {c : Char} (blank : isBlank c = true) : signs.contains c = false :=
  false_of_blank (by decide +kernel) blank

theorem QuantifierText.chars {text : List Char} {quantifier : Quantifier}
    (written : QuantifierText text quantifier) :
    text ≠ [] ∧ ∀ c ∈ text, c ∈ signs ∨ isAsciiDigit c = true := by
  cases written with
  | optional => simp [signs]
  | zeroOrMore => simp [signs]
  | oneOrMore => simp [signs]
  | exactly numeral => exact ⟨numeral.some, fun c member => .inr (numeral.digits c member)⟩
  | between lower upper =>
    refine ⟨by simp, fun c member => ?_⟩
    rcases List.mem_append.mp member with low | behind
    · exact .inr (lower.digits c low)
    · rcases List.mem_cons.mp behind with rfl | high
      · exact .inl (by decide)
      · exact .inr (upper.digits c high)

theorem QuantifierText.solid {text : List Char} {quantifier : Quantifier}
    (written : QuantifierText text quantifier) : Solid text where
  some := written.chars.1
  unblank c member := by
    cases blank : isBlank c with
    | false => rfl
    | true =>
      rcases written.chars.2 c member with sign | digit
      · exact absurd sign (by simpa using not_sign_of_blank blank)
      · exact digit.symm.trans (not_digit_of_blank blank)

theorem QuantifierText.plain {text : List Char} {quantifier : Quantifier}
    (written : QuantifierText text quantifier) : ∀ c ∈ text, c ∉ delimiters := by
  intro c member delimiter
  rcases written.chars.2 c member with sign | digit
  · have other : signs.contains c = false := false_of_delimiter (by decide +kernel) delimiter
    exact absurd sign (by simpa using other)
  · have other : isAsciiDigit c = false := false_of_delimiter (by decide +kernel) delimiter
    exact Bool.false_ne_true (other.symm.trans digit)

theorem Quantifier.read?_eq_some_iff {text : List Char} {quantifier : Quantifier} :
    read? text = some quantifier ↔ QuantifierText text quantifier :=
  ⟨QuantifierText.of_read, QuantifierText.read⟩

end SentenceGrammar
