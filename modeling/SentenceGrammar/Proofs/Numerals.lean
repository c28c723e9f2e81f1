import Mathlib.Computability.Language
import SentenceGrammar.Pattern.Builtin
import SentenceGrammar.Proofs.Words

/-!
# Numerals

The grammar of numbers, `[+-]?[0-9]+` for integers and
`[+-]?([0-9]+(\.[0-9]*)?|\.[0-9]+)([eE][+-]?[0-9]+)?` for numbers with an optional point and
exponent. Its words are recognised character by character, and scanning a number lists exactly the
places behind its words.
-/
namespace SentenceGrammar

open Text (isAsciiDigit)

namespace Numeral

/-- Digits, at least one of them. -/
def digits : Language Char := {word | word ≠ [] ∧ ∀ c ∈ word, isAsciiDigit c = true}

def oneOf (chars : List Char) : Language Char := {word | ∃ c ∈ chars, word = [c]}

def optional (language : Language Char) : Language Char := 1 + language

def sign : Language Char := optional (oneOf ['+', '-'])

def exponent : Language Char := oneOf ['e', 'E'] * (sign * digits)

def integer : Language Char := sign * digits

def float : Language Char :=
  sign * ((digits * optional (oneOf ['.'] * optional digits) + oneOf ['.'] * digits) *
    optional exponent)

/-- The words of a numeric type; the other types have none. -/
def language : Builtin → Language Char
  | .float => float
  | .int => integer
  | .digit | .letter | .whitespace => 0

/-! ### Recognising numerals -/

def startsWithDigit : List Char → Bool
  | [] => false
  | c :: _ => isAsciiDigit c

def isDigits (word : List Char) : Bool := startsWithDigit word && word.all isAsciiDigit

/-- The word without a sign in front. -/
def unsigned : List Char → List Char
  | [] => []
  | c :: word => if c = '+' ∨ c = '-' then word else c :: word

def isInteger (word : List Char) : Bool := isDigits (unsigned word)

def isExponent : List Char → Bool
  | [] => true
  | c :: word => (c = 'e' || c = 'E') && isInteger word

def isPlaces : List Char → Bool
  | [] => true
  | c :: word => if isAsciiDigit c then isPlaces word else isExponent (c :: word)

/-- What may follow the digits in front of a point. -/
def isFraction : List Char → Bool
  | [] => true
  | c :: word =>
    if isAsciiDigit c then isFraction word
    else if c = '.' then isPlaces word
    else isExponent (c :: word)

def isUnsignedFloat : List Char → Bool
  | [] => false
  | c :: word =>
    if isAsciiDigit c then isFraction word
    else c = '.' && (startsWithDigit word && isPlaces word)

def isFloat (word : List Char) : Bool := isUnsignedFloat (unsigned word)

/-- Whether a word is a numeral of the type. -/
def accepts : Builtin → List Char → Bool
  | .float => isFloat
  | .int => isInteger
  | .digit | .letter | .whitespace => fun _ => false

theorem mem_digits {word : List Char} : word ∈ digits ↔ word ≠ [] ∧ ∀ c ∈ word, isAsciiDigit c :=
  Iff.rfl

theorem mem_oneOf {chars word : List Char} : word ∈ oneOf chars ↔ ∃ c ∈ chars, word = [c] :=
  Iff.rfl

theorem mem_optional {language : Language Char} {word : List Char} :
    word ∈ optional language ↔ word = [] ∨ word ∈ language := Iff.rfl

theorem isDigits_iff {word : List Char} : isDigits word = true ↔ word ∈ digits := by
  rw [mem_digits]
  cases word with
  | nil => simp [isDigits, startsWithDigit]
  | cons c word => simp [isDigits, startsWithDigit]

/-- No numeral begins with a sign after its sign was taken off. -/
theorem mem_sign_mul {language : Language Char} {word : List Char}
    (unsignedWords : ∀ word ∈ language, unsigned word = word) :
    word ∈ sign * language ↔ unsigned word ∈ language := by
  rw [Language.mem_mul]
  constructor
  · rintro ⟨front, inSign, back, member, rfl⟩
    rcases inSign with rfl | ⟨c, chosen, rfl⟩
    · simpa [unsignedWords back member] using member
    · have signed : c = '+' ∨ c = '-' := by simpa using chosen
      simpa [unsigned, signed] using member
  · intro member
    cases word with
    | nil => exact ⟨[], .inl rfl, [], member, rfl⟩
    | cons c word =>
      by_cases signed : c = '+' ∨ c = '-'
      · simp only [unsigned, if_pos signed] at member
        exact ⟨[c], .inr ⟨c, by simpa using signed, rfl⟩, word, member, rfl⟩
      · simp only [unsigned, if_neg signed] at member
        exact ⟨[], .inl rfl, _, member, rfl⟩

private theorem not_sign_of_digit {c : Char} (digit : isAsciiDigit c = true) :
    ¬(c = '+' ∨ c = '-') := by
  rintro (rfl | rfl) <;> exact absurd digit (by decide)

theorem isInteger_iff {word : List Char} : isInteger word = true ↔ word ∈ integer := by
  rw [isInteger, isDigits_iff, integer, mem_sign_mul]
  rintro word ⟨nonempty, allDigits⟩
  cases word with
  | nil => rfl
  | cons c word => rw [unsigned, if_neg (not_sign_of_digit (allDigits c (by simp)))]

theorem isExponent_iff {word : List Char} :
    isExponent word = true ↔ word ∈ optional exponent := by
  rw [mem_optional, exponent, Language.mem_mul]
  cases word with
  | nil => simp [isExponent]
  | cons c word =>
    simp only [isExponent, Bool.and_eq_true, isInteger_iff, reduceCtorEq, false_or, mem_oneOf]
    constructor
    · rintro ⟨letter, member⟩
      exact ⟨[c], ⟨c, by simpa using letter, rfl⟩, word, member, rfl⟩
    · rintro ⟨_, ⟨d, chosen, rfl⟩, back, member, same⟩
      obtain ⟨rfl, rfl⟩ := List.cons.inj same
      exact ⟨by simpa using chosen, member⟩

-- Digits in front make no difference.
private theorem isPlaces_append {front : List Char} (word : List Char)
    (allDigits : ∀ c ∈ front, isAsciiDigit c = true) :
    isPlaces (front ++ word) = isPlaces word := by
  induction front with
  | nil => rfl
  | cons c front ih =>
    simp only [List.mem_cons, forall_eq_or_imp] at allDigits
    rw [List.cons_append, isPlaces, if_pos allDigits.1, ih allDigits.2]

private theorem isFraction_append {front : List Char} (word : List Char)
    (allDigits : ∀ c ∈ front, isAsciiDigit c = true) :
    isFraction (front ++ word) = isFraction word := by
  induction front with
  | nil => rfl
  | cons c front ih =>
    simp only [List.mem_cons, forall_eq_or_imp] at allDigits
    rw [List.cons_append, isFraction, if_pos allDigits.1, ih allDigits.2]

private theorem optional_digits {word : List Char} :
    word ∈ optional digits ↔ ∀ c ∈ word, isAsciiDigit c = true := by
  rw [mem_optional, mem_digits]
  cases word <;> simp

-- Behind the digits in front there is none.
private theorem not_startsWithDigit_dropWhile (word : List Char) :
    startsWithDigit (word.dropWhile isAsciiDigit) = false := by
  have head := List.head?_dropWhile_not isAsciiDigit word
  cases rest : word.dropWhile isAsciiDigit with
  | nil => rfl
  | cons c rest => simpa [rest, startsWithDigit] using head

private theorem digit_of_mem_takeWhile (word : List Char) :
    ∀ c ∈ word.takeWhile isAsciiDigit, isAsciiDigit c = true :=
  List.all_eq_true.mp List.all_takeWhile

theorem isPlaces_eq_isExponent {word : List Char} (other : startsWithDigit word = false) :
    isPlaces word = isExponent word := by
  cases word with
  | nil => rfl
  | cons c word =>
    rw [startsWithDigit] at other
    simp [isPlaces, other]

-- No numeral goes on with a digit behind its digits.
private theorem not_startsWithDigit_of_exponent {word : List Char}
    (member : word ∈ optional exponent) :
    startsWithDigit word = false := by
  cases word with
  | nil => rfl
  | cons c word =>
    have letter := isExponent_iff.mpr member
    simp only [isExponent, Bool.and_eq_true, Bool.or_eq_true, decide_eq_true_eq] at letter
    rcases letter.1 with rfl | rfl <;> rfl

theorem isPlaces_iff {word : List Char} :
    isPlaces word = true ↔ word ∈ optional digits * optional exponent := by
  rw [Language.mem_mul]
  constructor
  · intro accepted
    -- The only cut that can do is the one behind all digits.
    rw [← List.takeWhile_append_dropWhile (p := isAsciiDigit) (l := word),
      isPlaces_append _ (digit_of_mem_takeWhile word),
      isPlaces_eq_isExponent (not_startsWithDigit_dropWhile word)] at accepted
    exact ⟨_, optional_digits.mpr (digit_of_mem_takeWhile word), _, isExponent_iff.mp accepted,
      List.takeWhile_append_dropWhile⟩
  · rintro ⟨front, allDigits, back, member, rfl⟩
    rw [isPlaces_append _ (optional_digits.mp allDigits)]
    rw [isPlaces_eq_isExponent (not_startsWithDigit_of_exponent member)]
    exact isExponent_iff.mpr member

/-- Behind the digits in front of a point. -/
theorem isFraction_iff {word : List Char} (other : startsWithDigit word = false) :
    isFraction word = true ↔
      word ∈ optional (oneOf ['.'] * optional digits) * optional exponent := by
  rw [Language.mem_mul]
  cases word with
  | nil => exact ⟨fun _ => ⟨[], .inl rfl, [], .inl rfl, rfl⟩, fun _ => rfl⟩
  | cons c word =>
    rw [startsWithDigit] at other
    by_cases point : c = '.'
    -- With a point, the places behind it are left; without one, only the exponent.
    · subst point
      have unfolded : isFraction ('.' :: word) = isPlaces word := by simp [isFraction, other]
      rw [unfolded, isPlaces_iff, Language.mem_mul]
      constructor
      · rintro ⟨front, row, back, member, rfl⟩
        exact ⟨'.' :: front, .inr ⟨['.'], ⟨_, by simp, rfl⟩, front, row, rfl⟩, back, member, rfl⟩
      · rintro ⟨front, empty | ⟨_, ⟨d, chosen, rfl⟩, row, member, rfl⟩, back, last, same⟩
        -- The point belongs to the fraction, for no exponent begins with it.
        · rw [empty, List.nil_append] at same
          subst same
          have letter := isExponent_iff.mpr last
          simp [isExponent] at letter
        · exact ⟨row, member, back, last, (List.cons.inj same).2⟩
    · have unfolded : isFraction (c :: word) = isExponent (c :: word) := by
        simp [isFraction, other, point]
      rw [unfolded, isExponent_iff]
      constructor
      · intro member
        exact ⟨[], .inl rfl, c :: word, member, rfl⟩
      · rintro ⟨front, empty | ⟨_, ⟨d, chosen, rfl⟩, row, member, rfl⟩, back, last, same⟩
        · rw [empty, List.nil_append] at same
          exact same ▸ last
        · have same_head := (List.cons.inj same).1
          simp only [List.mem_singleton] at chosen
          exact absurd (same_head.symm.trans chosen) point

theorem isUnsignedFloat_iff {word : List Char} : isUnsignedFloat word = true ↔
    word ∈ (digits * optional (oneOf ['.'] * optional digits) + oneOf ['.'] * digits) *
      optional exponent := by
  rw [Language.mem_mul]
  constructor
  · intro accepted
    cases word with
    | nil => simp [isUnsignedFloat] at accepted
    | cons c word =>
      rw [isUnsignedFloat] at accepted
      split at accepted
      -- Digits in front of the point, and then perhaps a point,
      next digit =>
        rw [← List.takeWhile_append_dropWhile (p := isAsciiDigit) (l := word),
          isFraction_append _ (digit_of_mem_takeWhile word),
          isFraction_iff (not_startsWithDigit_dropWhile word), Language.mem_mul] at accepted
        obtain ⟨point, member, back, last, same⟩ := accepted
        have row : c :: word.takeWhile isAsciiDigit ∈ digits :=
          ⟨by simp, by simpa [digit] using digit_of_mem_takeWhile word⟩
        refine ⟨_, .inl (Language.append_mem_mul row member), back, last, ?_⟩
        rw [List.append_assoc, same, List.cons_append, List.takeWhile_append_dropWhile]
      -- or a point and then digits.
      next =>
        simp only [Bool.and_eq_true, decide_eq_true_eq] at accepted
        obtain ⟨rfl, digit, more⟩ := accepted
        obtain ⟨front, row, back, last, rfl⟩ := isPlaces_iff.mp more
        refine ⟨'.' :: front, .inr ⟨['.'], ⟨_, by simp, rfl⟩, front, ?_, rfl⟩, back, last, rfl⟩
        refine (mem_optional.mp row).resolve_left ?_
        rintro rfl
        exact absurd ((not_startsWithDigit_of_exponent last).symm.trans digit) (by decide)
  · rintro ⟨_, ⟨row, member, point, rest, rfl⟩ | ⟨_, ⟨d, chosen, rfl⟩, row, member, rfl⟩, back, last,
      rfl⟩
    · obtain ⟨nonempty, allDigits⟩ := member
      cases row with
      | nil => exact absurd rfl nonempty
      | cons c row =>
        simp only [List.mem_cons, forall_eq_or_imp] at allDigits
        have other : startsWithDigit (point ++ back) = false := by
          rcases rest with rfl | ⟨_, ⟨d, chosen, rfl⟩, places, -, rfl⟩
          · exact not_startsWithDigit_of_exponent last
          · simp only [List.mem_singleton] at chosen
            subst chosen
            rfl
        rw [List.append_assoc, List.cons_append, isUnsignedFloat, if_pos allDigits.1,
          isFraction_append _ allDigits.2, isFraction_iff other]
        exact Language.append_mem_mul rest last
    · simp only [List.mem_singleton] at chosen
      subst chosen
      have places := isPlaces_iff.mpr (Language.append_mem_mul (mem_optional.mpr (.inr member)) last)
      have digit : startsWithDigit (row ++ back) = true := by
        cases row with
        | nil => exact absurd rfl member.1
        | cons c row => exact member.2 c (by simp)
      simp [isUnsignedFloat, places, digit, show isAsciiDigit '.' = false from rfl]

theorem isFloat_iff {word : List Char} : isFloat word = true ↔ word ∈ float := by
  rw [isFloat, isUnsignedFloat_iff, float, mem_sign_mul]
  intro word member
  have accepted := isUnsignedFloat_iff.mpr member
  cases word with
  | nil => rfl
  | cons c word =>
    rw [unsigned, if_neg]
    rintro (rfl | rfl) <;> simp [isUnsignedFloat, isAsciiDigit] at accepted

theorem accepts_iff {type : Builtin} {word : List Char} :
    accepts type word = true ↔ word ∈ language type := by
  cases type with
  | float => exact isFloat_iff
  | int => exact isInteger_iff
  | digit | letter | whitespace => exact ⟨fun h => absurd h (by simp [accepts]), False.elim⟩

end Numeral

namespace Matching

open Numeral Cursor

/-! ### Scanning numbers -/

-- Behind a row of digits, each of which the language allows to be the last one, the words are
-- continued as behind its end.
private theorem behind_digits (language : List Char → Bool) (last : language [] = true)
    (further : ∀ c word, isAsciiDigit c = true → language (c :: word) = language word)
    (stops : List Cursor) (offset : Nat) (rest : List Char) :
    behind language ⟨offset, rest⟩ ++ stops =
      beyond language (scanDigits (⟨offset, rest⟩ :: stops) offset rest).reached ++
        (scanDigits (⟨offset, rest⟩ :: stops) offset rest).stops := by
  induction rest generalizing offset stops with
  | nil => simp [behind_eq_beyond language, last, scanDigits]
  | cons c rest ih =>
    by_cases digit : isAsciiDigit c = true
    · have tail : (fun word => language (c :: word)) = language :=
        funext fun word => further c word digit
      rw [behind_cons, tail, if_pos last, scanDigits, if_pos digit, List.append_assoc,
        List.singleton_append, ih]
    · simp [behind_eq_beyond language, last, scanDigits, digit]

-- The same for a row that needs a first digit.
private theorem behind_startsWithDigit (language : List Char → Bool)
    (last : language [] = true)
    (further : ∀ c word, isAsciiDigit c = true → language (c :: word) = language word)
    (stops : List Cursor) (start : Cursor) :
    behind (fun word => startsWithDigit word && language word) start ++ stops =
      (if startsWithDigit start.rest then
        beyond language (scanDigits stops start.offset start.rest).reached else []) ++
        (scanDigits stops start.offset start.rest).stops := by
  obtain ⟨offset, rest⟩ := start
  cases rest with
  | nil => simp [behind_nil, startsWithDigit, scanDigits]
  | cons c rest =>
    rw [behind_cons]
    by_cases digit : isAsciiDigit c = true
    · have tail : (fun word => startsWithDigit (c :: word) && language (c :: word)) = language :=
        funext fun word => by rw [startsWithDigit, digit, Bool.true_and, further c word digit]
      rw [tail]
      simp only [startsWithDigit, digit, scanDigits, if_true, Bool.false_and,
        Bool.false_eq_true, if_false, List.append_nil]
      exact behind_digits language last further stops _ rest
    · have none : ∀ word, (startsWithDigit (c :: word) && language (c :: word)) = false := by
        simp [startsWithDigit, digit]
      rw [behind_eq_nil fun word _ _ => none word]
      simp [startsWithDigit, digit, scanDigits]

private theorem scanDigits_append (stops : List Cursor) (offset : Nat) (rest : List Char) :
    (scanDigits stops offset rest).stops = (scanDigits [] offset rest).stops ++ stops := by
  have appended (first more : List Cursor) :
      (scanDigits (first ++ more) offset rest).stops =
        (scanDigits first offset rest).stops ++ more := by
    induction rest generalizing first offset with
    | nil => rfl
    | cons c rest ih =>
      rw [scanDigits, scanDigits]
      split
      · exact ih _ (_ :: first)
      · rfl
  exact appended [] stops

private theorem not_startsWithDigit_reached (stops : List Cursor) (offset : Nat)
    (rest : List Char) :
    startsWithDigit (scanDigits stops offset rest).reached.rest = false := by
  induction rest generalizing stops offset with
  | nil => rfl
  | cons c rest ih =>
    rw [scanDigits]
    split
    · exact ih _ _
    next other => simpa [startsWithDigit] using other

private theorem stops_eq_nil_iff (start : Cursor) :
    (scanDigits [] start.offset start.rest).stops = [] ↔ startsWithDigit start.rest = false := by
  obtain ⟨offset, rest⟩ := start
  cases rest with
  | nil => simp [scanDigits, startsWithDigit]
  | cons c rest =>
    by_cases digit : isAsciiDigit c = true
    · simp [scanDigits, startsWithDigit, digit, scanDigits_append [_]]
    · simp [scanDigits, startsWithDigit, digit]

-- An optional sign is skipped exactly as it is taken off a word.
private theorem behind_unsigned {language : List Char → Bool} (nonempty : language [] = false)
    (start : Cursor) :
    behind (fun word => language (unsigned word)) start =
      behind language (skipOne ['+', '-'] start) := by
  obtain ⟨offset, rest⟩ := start
  cases rest with
  | nil => simp [skipOne, behind_nil, unsigned]
  | cons c rest =>
    by_cases signed : c = '+' ∨ c = '-'
    · have skipped : skipOne ['+', '-'] ⟨offset, c :: rest⟩ = ⟨offset + c.utf8Size, rest⟩ := by
        simp [skipOne, signed, Cursor.past]
      simp [skipped, behind_cons, unsigned, signed, nonempty]
    · have skipped : skipOne ['+', '-'] ⟨offset, c :: rest⟩ = ⟨offset, c :: rest⟩ := by
        simp [skipOne, signed]
      rw [skipped, behind_cons, behind_cons]
      simp [unsigned, signed, nonempty]

private theorem isDigits_eq : isDigits = fun word =>
    startsWithDigit word && word.all isAsciiDigit := rfl

-- An integer is scanned as the words of its grammar.
private theorem scanWhole_stops (start : Cursor) :
    (scanWhole start).stops = start.behind isInteger := by
  have row := behind_startsWithDigit (fun word => word.all isAsciiDigit) rfl
    (fun c word digit => by simp [digit]) [] (skipOne ['+', '-'] start)
  -- Behind the last digit there is no further one.
  have nothing : beyond (fun word => word.all isAsciiDigit) (scanWhole start).reached = [] := by
    have other : startsWithDigit (scanWhole start).reached.rest = false :=
      not_startsWithDigit_reached _ _ _
    revert other
    obtain ⟨offset, rest⟩ := (scanWhole start).reached
    cases rest with
    | nil => exact fun _ => beyond_nil _ _
    | cons c rest =>
      intro other
      rw [beyond_cons, behind_eq_nil]
      simp only [startsWithDigit] at other
      simp [other]
  rw [List.append_nil, ← isDigits_eq] at row
  unfold isInteger
  rw [behind_unsigned rfl, row]
  unfold scanWhole at nothing ⊢
  split <;> simp [nothing]

-- A number so far together with the words that its exponents make of it.
private def Scan.withExponents (scan : Scan) : List Cursor :=
  (if scan.stops = [] then [] else beyond isExponent scan.reached) ++ scan.stops

private theorem scanExponent_stops (scan : Scan) :
    (scanExponent scan).stops = scan.withExponents := by
  obtain ⟨stops, offset, rest⟩ := scan
  by_cases nothing : stops = []
  · simp [scanExponent, Scan.withExponents, nothing]
  cases rest with
  | nil => simp [scanExponent, Scan.withExponents, nothing, skipOne, beyond_nil]
  | cons c rest =>
    have positive := Nat.pos_iff_ne_zero.mp c.utf8Size_pos
    -- The exponent adds stops only behind its letter; what was there before stays.
    by_cases letter : c = 'e' ∨ c = 'E'
    · have tail : (fun word => isExponent (c :: word)) = isInteger := by
        funext word
        rcases letter with rfl | rfl <;> rfl
      have behindLetter : skipOne ['e', 'E'] ⟨offset, c :: rest⟩ = ⟨offset + c.utf8Size, rest⟩ := by
        simp [skipOne, letter, Cursor.past]
      have exponents := scanWhole_stops ⟨offset + c.utf8Size, rest⟩
      rw [scanWhole] at exponents
      simp only [scanExponent, behindLetter, Scan.withExponents, nothing, beyond_cons, tail,
        false_or, Nat.add_eq_left, positive, if_false, ← exponents]
      exact scanDigits_append _ _ _
    · have unmoved : skipOne ['e', 'E'] ⟨offset, c :: rest⟩ = ⟨offset, c :: rest⟩ := by
        simp [skipOne, letter]
      have none : ∀ word, isExponent (c :: word) = false := by
        intro word
        rw [not_or] at letter
        simp [isExponent, letter]
      simp only [scanExponent, unmoved, Scan.withExponents, or_true, if_true, beyond_cons]
      rw [behind_eq_nil fun word _ _ => none word]
      simp

private theorem beyond_isPlaces (start : Cursor) (other : startsWithDigit start.rest = false) :
    beyond isPlaces start = beyond isExponent start := by
  obtain ⟨offset, rest⟩ := start
  cases rest with
  | nil => simp [beyond_nil]
  | cons c rest =>
    have tail : (fun word => isPlaces (c :: word)) = fun word => isExponent (c :: word) :=
      funext fun _ => isPlaces_eq_isExponent other
    rw [beyond_cons, beyond_cons, tail]

-- Behind the digits in front of a point.
private theorem scanPlaces_stops_of_digits (stops : List Cursor) (reached : Cursor)
    (nonempty : stops ≠ []) (other : startsWithDigit reached.rest = false) :
    (scanPlaces ⟨stops, reached⟩).withExponents = beyond isFraction reached ++ stops := by
  obtain ⟨offset, rest⟩ := reached
  cases rest with
  | nil => simp [scanPlaces, Scan.withExponents, beyond_nil]
  | cons c rest =>
    by_cases point : c = '.'
    · subst point
      have tail : (fun word => isFraction ('.' :: word)) = isPlaces := rfl
      have row := behind_digits isPlaces rfl
        (fun c word digit => by simp [isPlaces, digit]) stops (offset + '.'.utf8Size) rest
      have some : (scanDigits (⟨offset + '.'.utf8Size, rest⟩ :: stops) (offset + '.'.utf8Size)
          rest).stops ≠ [] := by
        rw [scanDigits_append]
        simp
      rw [beyond_cons, tail, row, beyond_isPlaces _ (not_startsWithDigit_reached _ _ _)]
      simp only [scanPlaces, if_neg nonempty, Scan.withExponents, Cursor.past, Text.byteSize_cons,
        Text.byteSize_nil, Nat.add_zero, if_neg some]
    · have unmoved : scanPlaces ⟨stops, offset, c :: rest⟩ = ⟨stops, offset, c :: rest⟩ := by
        unfold scanPlaces
        split
        next same => exact absurd (List.cons.inj same).1 point
        · rfl
      have tail : (fun word => isFraction (c :: word)) = fun word => isExponent (c :: word) := by
        funext word
        rw [startsWithDigit] at other
        simp [isFraction, other, point]
      rw [unmoved, Scan.withExponents, if_neg nonempty, beyond_cons, beyond_cons, tail]

-- Without digits in front, some must stand behind the point.
private theorem scanPlaces_stops_of_none (start : Cursor)
    (other : startsWithDigit start.rest = false) :
    (scanPlaces ⟨[], start⟩).withExponents = start.behind isUnsignedFloat := by
  obtain ⟨offset, rest⟩ := start
  cases rest with
  | nil => simp [scanPlaces, Scan.withExponents, behind_nil, isUnsignedFloat]
  | cons c rest =>
    rw [startsWithDigit] at other
    rw [behind_cons]
    by_cases point : c = '.'
    · subst point
      have tail : (fun word => isUnsignedFloat ('.' :: word)) =
          fun word => startsWithDigit word && isPlaces word := rfl
      have row := behind_startsWithDigit isPlaces rfl
        (fun c word digit => by simp [isPlaces, digit]) [] ⟨offset + '.'.utf8Size, rest⟩
      rw [beyond_isPlaces _ (not_startsWithDigit_reached _ _ _), List.append_nil] at row
      rw [tail, row]
      simp only [scanPlaces, Scan.withExponents, if_true, Cursor.past, Text.byteSize_cons,
        Text.byteSize_nil, Nat.add_zero, isUnsignedFloat, Bool.false_eq_true, if_false,
        List.append_nil, stops_eq_nil_iff ⟨offset + '.'.utf8Size, rest⟩]
      cases startsWithDigit rest <;> rfl
    · have unmoved : scanPlaces ⟨[], offset, c :: rest⟩ = ⟨[], offset, c :: rest⟩ := by
        unfold scanPlaces
        split
        next same => exact absurd (List.cons.inj same).1 point
        · rfl
      have none : ∀ word, isUnsignedFloat (c :: word) = false := by
        simp [isUnsignedFloat, other, point]
      rw [unmoved, behind_eq_nil fun word _ _ => none word]
      rfl

private theorem scanFloat_stops (start : Cursor) :
    (scanExponent (scanPlaces (scanWhole start))).stops = start.behind isFloat := by
  rw [scanExponent_stops]
  unfold isFloat
  rw [behind_unsigned rfl, scanWhole]
  generalize skipOne ['+', '-'] start = start
  -- The two ways to begin a number exclude each other, by the first character.
  by_cases digit : startsWithDigit start.rest = true
  · have some : (scanDigits [] start.offset start.rest).stops ≠ [] := by
      rw [Ne, stops_eq_nil_iff, digit]
      decide
    have row := behind_startsWithDigit isFraction rfl
      (fun c word digit => by simp [isFraction, digit]) [] start
    rw [if_pos digit, List.append_nil] at row
    rw [scanPlaces_stops_of_digits _ _ some (not_startsWithDigit_reached _ _ _), ← row]
    apply behind_congr
    intro word stop passes
    cases word with
    | nil => rfl
    | cons c word =>
      rw [passes.rest_eq, List.cons_append, startsWithDigit] at digit
      simp [startsWithDigit, isUnsignedFloat, isFraction, digit]
  · rw [Bool.not_eq_true] at digit
    have unmoved : scanDigits [] start.offset start.rest = ⟨[], start⟩ := by
      obtain ⟨offset, rest⟩ := start
      cases rest with
      | nil => rfl
      | cons c rest =>
        rw [startsWithDigit] at digit
        simp [scanDigits, digit]
    rw [unmoved, scanPlaces_stops_of_none _ digit]

/-- A number is scanned as the words of the grammar of its type. -/
theorem scanNumber_stops {type : Builtin} (numeric : type.accepts? = none) (start : Cursor) :
    (scanNumber (type = .float) start).stops = start.behind (accepts type) := by
  cases type with
  | float => exact scanFloat_stops start
  | int => exact scanWhole_stops start
  | digit | letter | whitespace => exact absurd numeric (by simp [Builtin.accepts?])

end Matching
end SentenceGrammar
