import SentenceGrammar.Proofs.ContinuedAttempts

/-!
# Scans of numbers

Scanning a number lists the places behind the words of its grammar, and gets to the end of the text
just if more of the text could make a word of it. One more digit always does: behind a sign, a point
or the beginning of an exponent as well as behind other digits.

## Main result

`scanNumber_exact`: where a number may stop, and when the end of the text stops its scan.
-/
namespace SentenceGrammar

open Text (isAsciiDigit)

/-- What is left at a later place ends as what is left at an earlier one. -/
theorem Cursor.Passes.getLast?_rest {start stop : Cursor} {word : List Char}
    (passes : start.Passes word stop) (some : stop.rest ≠ []) :
    stop.rest.getLast? = start.rest.getLast? := by
  rw [passes.rest_eq, List.getLast?_append_of_ne_nil _ some]

namespace Matching

open Cursor (continued)

variable {stops : List Cursor} {offset : Nat} {rest : List Char} {start : Cursor} {scan : Scan}
  {c : Char}

/-! ### Texts that end in a digit -/

section

variable (digit : isAsciiDigit c = true)

theorem skipOne_getLast? {chars : List Char} (other : c ∉ chars)
    (last : start.rest.getLast? = some c) : (skipOne chars start).rest.getLast? = some c := by
  rcases skipOne_passes chars start with same | ⟨d, listed, passes⟩
  · rwa [same]
  · -- The character that is skipped is not the last one.
    have some : (skipOne chars start).rest ≠ [] := by
      intro nothing
      rw [passes.rest_eq, nothing] at last
      exact other (Option.some.inj last ▸ listed)
    rwa [passes.getLast?_rest some]

theorem scanDigits_last (last : rest.getLast? = some c)
    (ended : (scanDigits stops offset rest).reached.rest = []) :
    (scanDigits stops offset rest).reached ∈ (scanDigits stops offset rest).stops := by
  refine (scanDigits_reached stops offset rest).resolve_right fun unmoved => ?_
  rw [unmoved] at ended
  rw [show rest = [] from ended] at last
  cases last

include digit

theorem not_mem_signs : c ∉ ['+', '-'] := by
  intro sign
  rcases List.mem_pair.mp sign with rfl | rfl <;> cases digit

theorem scanWhole_last (last : start.rest.getLast? = some c)
    (ended : (scanWhole start).reached.rest = []) : (scanWhole start).reached ∈ (scanWhole start).stops :=
  scanDigits_last (skipOne_getLast? (not_mem_signs digit) last) ended

theorem scanPlaces_last (last : scan.reached.rest.getLast? = some c)
    (ended : (scanPlaces scan).reached.rest = []) :
    (scanPlaces scan).reached ∈ (scanPlaces scan).stops := by
  rw [scanPlaces] at ended ⊢
  split at ended
  next rest known =>
    have passes : scan.reached.Passes ['.'] (scan.reached.past ['.'] rest) := Cursor.passes_past known
    have some : rest ≠ [] := by
      rintro rfl
      rw [known] at last
      cases Option.some.inj last
      cases digit
    exact scanDigits_last ((passes.getLast?_rest some).trans last) ended
  next =>
    rw [ended] at last
    cases last

theorem scanExponent_last (last : scan.reached.rest.getLast? = some c)
    (ended : (scanExponent scan).reached.rest = []) :
    (scanExponent scan).reached ∈ (scanExponent scan).stops := by
  have letter : c ∉ ['e', 'E'] := by
    intro letter
    rcases List.mem_pair.mp letter with rfl | rfl <;> cases digit
  rw [scanExponent] at ended ⊢
  dsimp only at ended ⊢
  split at ended
  next =>
    rw [ended] at last
    cases last
  next moved =>
    rw [if_neg moved]
    exact scanDigits_last
      (skipOne_getLast? (not_mem_signs digit) (skipOne_getLast? letter last)) ended

/-- A number that ends with the text and in a digit may stop there. -/
theorem scanNumber_last {isFloat : Bool} (last : start.rest.getLast? = some c)
    (ended : (scanNumber isFloat start).reached.rest = []) :
    (scanNumber isFloat start).reached ∈ (scanNumber isFloat start).stops := by
  cases isFloat with
  | false => exact scanWhole_last digit last ended
  | true =>
    rw [scanNumber, if_pos rfl] at ended ⊢
    -- The first part that gets to the end stops there, and the others leave it as it is.
    obtain ⟨_, digits⟩ := scanWhole_reaches start
    by_cases whole : (scanWhole start).reached.rest = []
    · rw [scanPlaces_atEnd whole, scanExponent_atEnd whole]
      exact scanWhole_last digit last whole
    have lastWhole := (digits.getLast?_rest whole).trans last
    obtain ⟨_, point⟩ := scanPlaces_reaches (scanWhole start)
    by_cases places : (scanPlaces (scanWhole start)).reached.rest = []
    · rw [scanExponent_atEnd places]
      exact scanPlaces_last digit lastWhole places
    exact scanExponent_last digit ((point.getLast?_rest places).trans lastWhole) ended

end

/-! ### No stop is behind the end of the scan -/

/-- The scan got at least as far as the places where it may stop. -/
def Scan.Bounded (scan : Scan) : Prop := ∀ stop ∈ scan.stops, stop.offset ≤ scan.reached.offset

theorem scanDigits_bounded (before : ∀ stop ∈ stops, stop.offset ≤ offset) :
    (scanDigits stops offset rest).Bounded := by
  induction rest generalizing stops offset with
  | nil => exact before
  | cons c rest ih =>
    rw [scanDigits]
    split
    next =>
      exact ih (List.forall_mem_cons.mpr
        ⟨Nat.le_refl _, fun stop mem => Nat.le_add_right_of_le (before stop mem)⟩)
    next => exact before

theorem scanPlaces_bounded (bounded : scan.Bounded) : (scanPlaces scan).Bounded := by
  rw [scanPlaces]
  split
  next rest known =>
    apply scanDigits_bounded
    split
    next => simp
    next =>
      exact List.forall_mem_cons.mpr
        ⟨Nat.le_refl _, fun stop mem => Nat.le_add_right_of_le (bounded stop mem)⟩
  next => exact bounded

theorem scanExponent_bounded (bounded : scan.Bounded) : (scanExponent scan).Bounded := by
  rw [scanExponent]
  dsimp only
  split
  next => exact bounded
  next =>
    obtain ⟨_, letter⟩ := skipOne_reaches ['e', 'E'] scan.reached
    obtain ⟨_, sign⟩ := skipOne_reaches ['+', '-'] (skipOne ['e', 'E'] scan.reached)
    exact scanDigits_bounded fun stop mem => (bounded stop mem).trans (letter.trans sign).offset_le

theorem scanNumber_bounded (isFloat : Bool) (start : Cursor) :
    (scanNumber isFloat start).Bounded := by
  have whole : (scanWhole start).Bounded := scanDigits_bounded (by simp)
  cases isFloat with
  | false => exact whole
  | true => exact scanExponent_bounded (scanPlaces_bounded whole)

/-! ### Words that the end of the text breaks off -/

section

variable {type : Builtin} (numeric : type.accepts? = none)

include numeric

theorem mem_stops_scanNumber {stop : Cursor} : stop ∈ (scanNumber (type = .float) start).stops ↔
    ∃ word, start.Passes word stop ∧ word ∈ Numeral.language type := by
  simp only [scanNumber_stops numeric, Cursor.mem_behind, Numeral.accepts_iff]

/-- If what is left of the text begins a word, then all of it is scanned. -/
theorem ended_of_mem_language {more : List Char}
    (numeral : start.rest ++ more ∈ Numeral.language type) :
    (scanNumber (type = .float) start).reached.rest = [] := by
  by_contra going
  -- The scan is the same if the text goes on, so it gets behind the whole word.
  have longer : scanNumber (type = .float) (start.continued more) =
      (scanNumber (type = .float) start).continued more := scanNumber_continued going
  have listed : (start.continued more).finish ∈
      (scanNumber (type = .float) (start.continued more)).stops :=
    (mem_stops_scanNumber numeric).mpr ⟨_, Cursor.passes_finish _, numeral⟩
  have beyond := scanNumber_bounded _ _ _ listed
  obtain ⟨_, passes⟩ := scanNumber_reaches (type = .float) start
  have same := congrArg Cursor.offset passes.finish_eq
  simp only [longer, Scan.continued, Cursor.finish, Cursor.past, Cursor.continued_offset,
    Cursor.continued_rest, Text.byteSize_append] at beyond same
  apply going
  rw [← Text.byteSize_eq_zero_iff]
  omega

/-- If all that is left of the text is scanned, one more digit makes a word of it. -/
theorem mem_language_of_ended (ended : (scanNumber (type = .float) start).reached.rest = [])
    (digit : isAsciiDigit c = true) : start.rest ++ [c] ∈ Numeral.language type := by
  have longer : (scanNumber (type = .float) (start.continued [c])).reached.rest = [] :=
    scanNumber_more ended digit
  have last : (start.continued [c]).rest.getLast? = some c := by simp
  obtain ⟨word, passes, numeral⟩ :=
    (mem_stops_scanNumber numeric).mp (scanNumber_last digit last longer)
  have whole := passes.rest_eq
  rw [longer, List.append_nil] at whole
  rwa [← whole] at numeral

end

/-! ### All about the scan of a number -/

/-- What the scan of a word of the language from a place of a text tells. -/
structure Scan.Exact (scan : Scan) (language : Language Char) (text : List Char) (start : Cursor) :
    Prop where
  /-- It moves over places of the text, -/
  places : scan.reached.In text ∧ ∀ stop ∈ scan.stops, stop.In text
  /-- may stop just where the slice of the text from the start on is a word, -/
  stops : ∀ offset, (∃ stop ∈ scan.stops, stop.offset = offset) ↔
    ∃ word ∈ language, (⟨start.offset, offset⟩ : Span).slice? text = some word
  /-- the furthest place first, -/
  ordered : (scan.stops.map Cursor.offset).Pairwise (· > ·)
  /-- and gets to the end of the text just if what is left of the text begins a word. -/
  ended : scan.reached.offset = Text.byteSize text ↔ ∃ word ∈ language, start.rest <+: word

/-- The scan of a number stops exactly behind its words, and knows whether more could follow. -/
theorem scanNumber_exact {type : Builtin} (numeric : type = .int ∨ type = .float)
    {text : String} {start : Cursor} (inside : start.In text.toList) :
    (scanNumber (type = .float) start).Exact (Numeral.language type) text.toList start := by
  have unread : type.accepts? = none := by rcases numeric with rfl | rfl <;> rfl
  obtain ⟨_, reaches⟩ := scanNumber_reaches (type = .float) start
  constructor
  case places =>
    refine ⟨inside.passes reaches, fun stop listed => ?_⟩
    obtain ⟨word, passes, -⟩ := (mem_stops_scanNumber unread).mp listed
    exact inside.passes passes
  case stops =>
    intro offset
    constructor
    · rintro ⟨stop, listed, rfl⟩
      obtain ⟨word, passes, numeral⟩ := (mem_stops_scanNumber unread).mp listed
      exact ⟨word, numeral, inside.slice?_eq_some_iff.mpr ⟨stop, passes, rfl⟩⟩
    · rintro ⟨word, numeral, sliced⟩
      obtain ⟨stop, passes, rfl⟩ := inside.slice?_eq_some_iff.mp sliced
      exact ⟨stop, (mem_stops_scanNumber unread).mpr ⟨word, passes, numeral⟩, rfl⟩
  case ordered =>
    rw [List.pairwise_map, scanNumber_stops unread]
    exact Cursor.pairwise_behind _ _
  case ended =>
    rw [← (inside.passes reaches).rest_eq_nil_iff]
    constructor
    · intro ended
      have digit : isAsciiDigit '0' = true := by decide
      exact ⟨_, mem_language_of_ended unread ended digit, List.prefix_append _ _⟩
    · rintro ⟨_, numeral, more, rfl⟩
      exact ended_of_mem_language unread numeral

/-- Behind the letter `à` the text breaks off in an exponent, and the number in front of it may stop
at two places. -/
theorem scanNumber_exact_exponent :
    (⟨2, "-4.e+".toList⟩ : Cursor).In "à-4.e+".toList ∧
      ((scanNumber true ⟨2, "-4.e+".toList⟩).stops.map Cursor.offset = [5, 4]) ∧
      (scanNumber true ⟨2, "-4.e+".toList⟩).Exact Numeral.float "à-4.e+".toList
        ⟨2, "-4.e+".toList⟩ := by
  have inside : (⟨2, "-4.e+".toList⟩ : Cursor).In "à-4.e+".toList := ⟨['à'], by decide, by decide⟩
  exact ⟨inside, by decide, scanNumber_exact (.inr rfl) inside⟩

end Matching
end SentenceGrammar
