import SentenceGrammar.Matching.Scan
import SentenceGrammar.Proofs.Places

/-!
# Scanning a longer text

A scan of a text and a scan of the same text with more behind it do the same until the shorter text
ends. So unless the end of the shorter text stopped the scan, both have the same outcome.
-/
namespace SentenceGrammar

namespace Cursor

/-- The same place in a text that goes on with `more`. -/
def continued (more : List Char) (place : Cursor) : Cursor := ⟨place.offset, place.rest ++ more⟩

variable {more : List Char} {start stop : Cursor} {word : List Char}

@[simp] theorem continued_offset (more : List Char) (place : Cursor) :
    (place.continued more).offset = place.offset := rfl

@[simp] theorem continued_rest (more : List Char) (place : Cursor) :
    (place.continued more).rest = place.rest ++ more := rfl

@[simp] theorem continued_nil (place : Cursor) : place.continued [] = place := by
  simp [continued]

theorem Passes.continued (passes : start.Passes word stop) (more : List Char) :
    (start.continued more).Passes word (stop.continued more) :=
  ⟨by simp [passes.rest_eq], passes.offset_eq⟩

theorem skipWhile_continued {accepts : Char → Bool} (stopped : (start.skipWhile accepts).rest ≠ []) :
    (start.continued more).skipWhile accepts = (start.skipWhile accepts).continued more := by
  obtain ⟨offset, rest⟩ := start
  simp only [skipWhile, past, continued] at stopped ⊢
  rw [List.takeWhile_append, List.dropWhile_append]
  -- Something is left, so the run did not take all of the shorter text.
  have taken : (rest.takeWhile accepts).length ≠ rest.length := by
    intro all
    have whole := congrArg List.length (List.takeWhile_append_dropWhile (p := accepts) (l := rest))
    rw [List.length_append, all] at whole
    exact stopped (List.length_eq_zero_iff.mp (by omega))
  rw [if_neg taken, if_neg (by simpa using stopped)]

end Cursor

namespace Matching

open Cursor (continued)

variable {more : List Char}

def Scan.continued (more : List Char) (scan : Scan) : Scan :=
  ⟨scan.stops.map (Cursor.continued more), scan.reached.continued more⟩

@[simp] theorem Scan.continued_nil (scan : Scan) : scan.continued [] = scan := by
  have same : Cursor.continued [] = id := funext Cursor.continued_nil
  simp [Scan.continued, same]

/-- Behind the end of the shorter text, the scan of a literal goes on with what is missing. -/
theorem scanLiteral_continued (literal : List Char) (start : Cursor) (more : List Char) :
    scanLiteral literal (start.continued more) =
      match scanLiteral literal start with
      | .whole stop => .whole (stop.continued more)
      | .ended missing => scanLiteral missing (start.finish.continued more)
      | .differs place missing => .differs (place.continued more) missing := by
  induction literal generalizing start with
  | nil => rfl
  | cons c rest ih =>
    obtain ⟨offset, chars⟩ := start
    cases chars with
    | nil => rfl
    | cons d chars =>
      simp only [scanLiteral, continued, List.cons_append]
      split
      · have behind := ih (Cursor.past ⟨offset, d :: chars⟩ [d] chars)
        simp only [continued, Cursor.past, Cursor.finish, Text.byteSize_cons, Text.byteSize_nil,
          Nat.add_zero, Nat.add_assoc] at behind ⊢
        exact behind
      · rfl

/-- A run that the end of the text did not stop is the same in the longer text. -/
theorem scanRun_continued {quantifier : Quantifier} {accepts : Char → Bool} {stops : List Cursor}
    {done offset : Nat} {rest : List Char} {scan : Scan} {extendable : Bool}
    (scanned : scanRun quantifier accepts stops done offset rest = (scan, extendable))
    (stopped : extendable = true → scan.reached.rest ≠ []) :
    scanRun quantifier accepts (stops.map (continued more)) done offset (rest ++ more) =
      (scan.continued more, extendable) := by
  induction rest generalizing stops done offset with
  | nil =>
    rw [scanRun] at scanned
    obtain ⟨rfl, rfl⟩ := Prod.mk.inj scanned
    have full : quantifier.allowsMore done = false := by
      rw [Bool.eq_false_iff]
      exact fun further => stopped further rfl
    -- No further character is allowed, so it does not matter which one comes.
    cases more <;> simp [scanRun, Scan.continued, full, continued, apply_ite (List.map _)]
  | cons c rest ih =>
    rw [List.cons_append]
    rw [scanRun] at scanned ⊢
    have moved : (if quantifier.least ≤ done then
        (⟨offset, c :: (rest ++ more)⟩ : Cursor) :: stops.map (continued more)
          else stops.map (continued more)) =
        (if quantifier.least ≤ done then ⟨offset, c :: rest⟩ :: stops else stops).map
          (continued more) := by
      split <;> rfl
    rw [moved]
    split at scanned
    next further =>
      rw [if_pos further]
      exact ih scanned
    next full =>
      obtain ⟨rfl, rfl⟩ := Prod.mk.inj scanned
      rw [if_neg full]
      rfl

theorem scanDigits_continued {stops : List Cursor} {offset : Nat} {rest : List Char}
    (stopped : (scanDigits stops offset rest).reached.rest ≠ []) :
    scanDigits (stops.map (continued more)) offset (rest ++ more) =
      (scanDigits stops offset rest).continued more := by
  induction rest generalizing stops offset with
  | nil => exact absurd rfl stopped
  | cons c rest ih =>
    rw [List.cons_append]
    rw [scanDigits] at stopped ⊢
    rw [scanDigits]
    split
    next digit =>
      rw [if_pos digit] at stopped
      exact ih stopped
    next => rfl

theorem skipOne_continued {chars : List Char} {place : Cursor} (some : place.rest ≠ []) :
    skipOne chars (place.continued more) = (skipOne chars place).continued more := by
  obtain ⟨offset, rest⟩ := place
  cases rest with
  | nil => exact absurd rfl some
  | cons c rest =>
    simp only [skipOne, continued, List.cons_append]
    split <;> rfl

/-! ### Nothing is scanned at the end -/

theorem skipOne_atEnd {chars : List Char} {place : Cursor} (atEnd : place.rest = []) :
    skipOne chars place = place := by
  simp [skipOne, atEnd]

theorem scanPlaces_atEnd {scan : Scan} (atEnd : scan.reached.rest = []) :
    scanPlaces scan = scan := by
  simp [scanPlaces, atEnd]

theorem scanExponent_atEnd {scan : Scan} (atEnd : scan.reached.rest = []) :
    scanExponent scan = scan := by
  simp [scanExponent, skipOne_atEnd atEnd]

/-! ### Numbers -/

theorem scanWhole_continued {start : Cursor} (stopped : (scanWhole start).reached.rest ≠ []) :
    scanWhole (start.continued more) = (scanWhole start).continued more := by
  have some : start.rest ≠ [] := by
    intro atEnd
    rw [scanWhole, skipOne_atEnd atEnd, atEnd] at stopped
    exact stopped rfl
  rw [scanWhole, skipOne_continued some]
  exact scanDigits_continued stopped

theorem scanPlaces_continued {scan : Scan} (stopped : (scanPlaces scan).reached.rest ≠ []) :
    scanPlaces (scan.continued more) = (scanPlaces scan).continued more := by
  obtain ⟨stops, ⟨offset, rest⟩⟩ := scan
  cases rest with
  | nil => exact absurd rfl stopped
  | cons c rest =>
    by_cases point : c = '.'
    · subst point
      cases stops with
      | nil => exact scanDigits_continued stopped
      | cons first stops => exact scanDigits_continued stopped
    · have other (tail : List Char) (reached : List Cursor) :
          scanPlaces ⟨reached, ⟨offset, c :: tail⟩⟩ = ⟨reached, ⟨offset, c :: tail⟩⟩ := by
        rw [scanPlaces]
        split
        next same => exact absurd (List.cons.inj same).1 point
        next => rfl
      simp [Scan.continued, continued, other]

theorem scanExponent_continued {scan : Scan} (stopped : (scanExponent scan).reached.rest ≠ []) :
    scanExponent (scan.continued more) = (scanExponent scan).continued more := by
  have some : scan.reached.rest ≠ [] := by
    intro atEnd
    rw [scanExponent_atEnd atEnd] at stopped
    exact stopped atEnd
  have skipped : skipOne ['e', 'E'] (scan.continued more).reached =
      (skipOne ['e', 'E'] scan.reached).continued more := skipOne_continued some
  rw [scanExponent] at stopped ⊢
  rw [scanExponent, skipped]
  by_cases stays : scan.stops = [] ∨ (skipOne ['e', 'E'] scan.reached).offset = scan.reached.offset
  · have stays' : (scan.continued more).stops = [] ∨
        ((skipOne ['e', 'E'] scan.reached).continued more).offset =
          (scan.continued more).reached.offset := by
      simpa [Scan.continued] using stays
    simp only [if_pos stays, if_pos stays']
  · have stays' : ¬((scan.continued more).stops = [] ∨
        ((skipOne ['e', 'E'] scan.reached).continued more).offset =
          (scan.continued more).reached.offset) := by
      simpa [Scan.continued] using stays
    simp only [if_neg stays, if_neg stays'] at stopped ⊢
    have signed : (skipOne ['e', 'E'] scan.reached).rest ≠ [] := by
      intro atEnd
      rw [skipOne_atEnd atEnd, atEnd] at stopped
      exact stopped rfl
    rw [skipOne_continued signed]
    exact scanDigits_continued stopped

/-- A number that the end of the text did not stop is the same in the longer text. -/
theorem scanNumber_continued {isFloat : Bool} {start : Cursor}
    (stopped : (scanNumber isFloat start).reached.rest ≠ []) :
    scanNumber isFloat (start.continued more) = (scanNumber isFloat start).continued more := by
  cases isFloat with
  | false => exact scanWhole_continued stopped
  | true =>
    -- Each part leaves something of the text, or the next ones would leave nothing either.
    have places : (scanPlaces (scanWhole start)).reached.rest ≠ [] := by
      intro atEnd
      rw [scanNumber, if_pos rfl, scanExponent_atEnd atEnd] at stopped
      exact stopped atEnd
    have whole : (scanWhole start).reached.rest ≠ [] := by
      intro atEnd
      rw [scanPlaces_atEnd atEnd] at places
      exact places atEnd
    rw [scanNumber, if_pos rfl, scanWhole_continued whole, scanPlaces_continued places]
    exact scanExponent_continued stopped

end Matching
end SentenceGrammar
