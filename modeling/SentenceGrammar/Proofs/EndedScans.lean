import SentenceGrammar.Proofs.CutOffs
import SentenceGrammar.Proofs.Fronts
import SentenceGrammar.Proofs.Substance

/-!
# Scans that the end of a beginning stops

Where the end of a beginning stops a scan, the scan of the whole text gets at least as far. There it
either notes that something else would be accepted, or it may stop at the furthest place, with one
exception: behind a number, the letter and the sign of an exponent are passed even if no digits follow
them.
-/
namespace SentenceGrammar

/-! ### Exponents without digits -/

namespace Numeral

/-- The beginning of an exponent, up to its digits. -/
def exponentMark : Language Char := oneOf ['e', 'E'] * sign

/-- The text ends in a number with the beginning of an exponent. -/
def EndsInMark (text : List Char) : Prop :=
  ∃ before number mark, text = before ++ number ++ mark ∧ number ∈ float ∧ mark ∈ exponentMark

theorem mem_exponentMark {mark : List Char} : mark ∈ exponentMark ↔
    ∃ letter ∈ ['e', 'E'], mark = [letter] ∨ ∃ sign ∈ ['+', '-'], mark = [letter, sign] := by
  simp only [exponentMark, Language.mem_mul, sign, mem_optional, mem_oneOf]
  constructor
  · rintro ⟨_, ⟨letter, listed, rfl⟩, _, rfl | ⟨sign, signed, rfl⟩, rfl⟩
    · exact ⟨letter, listed, .inl rfl⟩
    · exact ⟨letter, listed, .inr ⟨sign, signed, rfl⟩⟩
  · rintro ⟨letter, listed, rfl | ⟨sign, signed, rfl⟩⟩
    · exact ⟨_, ⟨letter, listed, rfl⟩, [], .inl rfl, rfl⟩
    · exact ⟨_, ⟨letter, listed, rfl⟩, _, .inr ⟨sign, signed, rfl⟩, rfl⟩

/-- A beginning of the beginning of an exponent is one itself, unless it is empty. -/
theorem exponentMark_front {front back : List Char} (mark : front ++ back ∈ exponentMark)
    (some : front ≠ []) : front ∈ exponentMark := by
  obtain ⟨c, rest, rfl⟩ := List.exists_cons_of_ne_nil some
  rw [mem_exponentMark] at mark ⊢
  obtain ⟨letter, listed, only | ⟨sign, signed, both⟩⟩ := mark
  · obtain ⟨rfl, nothing⟩ := List.cons.inj only
    obtain ⟨rfl, rfl⟩ := List.append_eq_nil_iff.mp nothing
    exact ⟨c, listed, .inl rfl⟩
  · obtain ⟨rfl, last⟩ := List.cons.inj both
    rcases List.append_eq_singleton_iff.mp last with ⟨rfl, -⟩ | ⟨rfl, -⟩
    · exact ⟨c, listed, .inl rfl⟩
    · exact ⟨c, listed, .inr ⟨sign, signed, rfl⟩⟩

theorem EndsInMark.last {text : List Char} (ends : EndsInMark text) :
    ∃ c ∈ ['e', 'E', '+', '-'], text.getLast? = some c := by
  obtain ⟨before, number, mark, rfl, -, marked⟩ := ends
  obtain ⟨letter, listed, rfl | ⟨sign, signed, rfl⟩⟩ := mem_exponentMark.mp marked
  · refine ⟨letter, ?_, by simp⟩
    simp only [List.mem_cons, List.not_mem_nil, or_false] at listed ⊢
    exact listed.elim .inl fun upper => .inr (.inl upper)
  · refine ⟨sign, ?_, by simp⟩
    simp only [List.mem_cons, List.not_mem_nil, or_false] at signed ⊢
    exact .inr (.inr signed)

end Numeral

namespace Cursor

variable {start stop : Cursor} {word : List Char}

/-- Whatever is passed, the text ends at the same place. -/
theorem Passes.finish_eq (passes : start.Passes word stop) : start.finish = stop.finish := by
  rw [finish, finish, past, past, passes.offset_eq, passes.rest_eq, Text.byteSize_append,
    Nat.add_assoc]

theorem In.finish_offset {text : List Char} (inside : start.In text) :
    start.finish.offset = Text.byteSize text := inside.offset_add

/-- A span can tell where a text of less than `2 ^ 32` bytes ends. -/
theorem finish_le_limit {text : List Char} (small : Text.byteSize text < 2 ^ 32) :
    (finish ⟨0, text⟩).offset ≤ Span.limit := by
  rw [(in_start text).finish_offset, Span.limit]
  omega

end Cursor

namespace Matching

open Cursor (continued)

variable {more : List Char}

/-! ### The longer text -/

theorem scanDigits_beyond {stops stops' : List Cursor} {offset : Nat} {rest : List Char}
    (ended : (scanDigits stops offset rest).reached.rest = []) :
    (Cursor.finish ⟨offset, rest⟩).offset ≤
      (scanDigits stops' offset (rest ++ more)).reached.offset := by
  induction rest generalizing stops stops' offset with
  | nil =>
    obtain ⟨_, passes⟩ := scanDigits_reaches stops' offset more
    exact passes.offset_le
  | cons c rest ih =>
    have passes : Cursor.Passes ⟨offset, c :: rest⟩ [c] ⟨offset + c.utf8Size, rest⟩ :=
      Cursor.passes_past rfl
    rw [passes.finish_eq, List.cons_append]
    rw [scanDigits] at ended ⊢
    split at ended
    next digit =>
      rw [if_pos digit]
      exact ih ended
    next => cases ended

-- Digits with an optional sign in front, as they stand at the beginning of a number and in its
-- exponent.
private theorem signed_beyond {stops stops' : List Cursor} {start : Cursor}
    (ended : (scanDigits stops (skipOne ['+', '-'] start).offset
      (skipOne ['+', '-'] start).rest).reached.rest = []) :
    start.finish.offset ≤ (scanDigits stops' (skipOne ['+', '-'] (start.continued more)).offset
      (skipOne ['+', '-'] (start.continued more)).rest).reached.offset := by
  by_cases nothing : start.rest = []
  · obtain ⟨_, sign⟩ := skipOne_reaches ['+', '-'] (start.continued more)
    obtain ⟨_, digits⟩ := scanDigits_reaches stops' (skipOne ['+', '-'] (start.continued more)).offset
      (skipOne ['+', '-'] (start.continued more)).rest
    have further := (sign.trans digits).offset_le
    rwa [Cursor.finish, nothing]
  · obtain ⟨_, sign⟩ := skipOne_reaches ['+', '-'] start
    rw [sign.finish_eq, skipOne_continued nothing]
    exact scanDigits_beyond ended

theorem scanWhole_beyond {start : Cursor} (ended : (scanWhole start).reached.rest = []) :
    start.finish.offset ≤ (scanWhole (start.continued more)).reached.offset := signed_beyond ended

theorem scanPlaces_beyond {scan : Scan} (ended : (scanPlaces scan).reached.rest = []) :
    scan.reached.finish.offset ≤ (scanPlaces (scan.continued more)).reached.offset := by
  obtain ⟨stops, ⟨offset, rest⟩⟩ := scan
  cases rest with
  | nil =>
    obtain ⟨_, passes⟩ := scanPlaces_reaches (Scan.continued more ⟨stops, ⟨offset, []⟩⟩)
    exact passes.offset_le
  | cons c rest =>
    by_cases point : c = '.'
    · subst point
      have passes : Cursor.Passes ⟨offset, '.' :: rest⟩ ['.'] ⟨offset + '.'.utf8Size, rest⟩ :=
        Cursor.passes_past rfl
      rw [passes.finish_eq]
      exact scanDigits_beyond ended
    · rw [scanPlaces] at ended
      split at ended
      next same => exact absurd (List.cons.inj same).1 point
      next => cases ended

theorem scanExponent_beyond {scan : Scan} (ended : (scanExponent scan).reached.rest = []) :
    scan.reached.finish.offset ≤ (scanExponent (scan.continued more)).reached.offset := by
  by_cases nothing : scan.reached.rest = []
  · obtain ⟨_, passes⟩ := scanExponent_reaches (scan.continued more)
    have further := passes.offset_le
    rwa [Cursor.finish, nothing]
  have skipped : skipOne ['e', 'E'] (scan.continued more).reached =
      (skipOne ['e', 'E'] scan.reached).continued more := skipOne_continued nothing
  rw [scanExponent] at ended ⊢
  rw [skipped]
  by_cases stays : scan.stops = [] ∨ (skipOne ['e', 'E'] scan.reached).offset = scan.reached.offset
  · simp only [if_pos stays] at ended
    exact absurd ended nothing
  · have stays' : ¬((scan.continued more).stops = [] ∨
        ((skipOne ['e', 'E'] scan.reached).continued more).offset =
          (scan.continued more).reached.offset) := by
      simpa [Scan.continued] using stays
    simp only [if_neg stays] at ended
    simp only [if_neg stays']
    obtain ⟨_, letter⟩ := skipOne_reaches ['e', 'E'] scan.reached
    rw [letter.finish_eq]
    exact signed_beyond ended

/-- Where the end of the beginning stops the scan of a number, the scan of the whole text gets at
least as far. -/
theorem scanNumber_beyond {isFloat : Bool} {start : Cursor}
    (ended : (scanNumber isFloat start).reached.rest = []) :
    start.finish.offset ≤ (scanNumber isFloat (start.continued more)).reached.offset := by
  cases isFloat with
  | false => exact scanWhole_beyond ended
  | true =>
    rw [scanNumber, if_pos rfl] at ended ⊢
    obtain ⟨_, digits⟩ := scanWhole_reaches start
    obtain ⟨_, point⟩ := scanPlaces_reaches (scanWhole start)
    -- The first part that gets to the end gets behind it in the whole text, and the parts after it
    -- do not go back.
    by_cases whole : (scanWhole start).reached.rest = []
    · obtain ⟨_, places⟩ := scanPlaces_reaches (scanWhole (start.continued more))
      obtain ⟨_, exponent⟩ := scanExponent_reaches (scanPlaces (scanWhole (start.continued more)))
      exact (scanWhole_beyond whole).trans (places.trans exponent).offset_le
    rw [scanWhole_continued whole, digits.finish_eq]
    by_cases places : (scanPlaces (scanWhole start)).reached.rest = []
    · obtain ⟨_, exponent⟩ := scanExponent_reaches (scanPlaces ((scanWhole start).continued more))
      exact (scanPlaces_beyond places).trans exponent.offset_le
    rw [scanPlaces_continued places, point.finish_eq]
    exact scanExponent_beyond ended

theorem scanRun_beyond {quantifier : Quantifier} {accepts : Char → Bool} {stops stops' : List Cursor}
    {done offset : Nat} {rest : List Char}
    (ended : (scanRun quantifier accepts stops done offset rest).1.reached.rest = []) :
    (Cursor.finish ⟨offset, rest⟩).offset ≤
      (scanRun quantifier accepts stops' done offset (rest ++ more)).1.reached.offset := by
  induction rest generalizing stops stops' done offset with
  | nil =>
    obtain ⟨_, passes⟩ := scanRun_reaches quantifier accepts stops' done offset more
    exact passes.offset_le
  | cons c rest ih =>
    have passes : Cursor.Passes ⟨offset, c :: rest⟩ [c] ⟨offset + c.utf8Size, rest⟩ :=
      Cursor.passes_past rfl
    rw [passes.finish_eq, List.cons_append]
    rw [scanRun] at ended ⊢
    split at ended
    next further =>
      rw [if_pos further]
      exact ih ended
    next => cases ended

/-! ### Where scans may stop -/

/-- A run that takes as many characters as it may stops behind them. -/
theorem scanRun_full {quantifier : Quantifier} (satisfiable : quantifier.Satisfiable)
    {accepts : Char → Bool} {stops : List Cursor} {done offset : Nat} {rest : List Char} {scan : Scan}
    (scanned : scanRun quantifier accepts stops done offset rest = (scan, false)) :
    scan.reached ∈ scan.stops ∧
      (quantifier.allowsMore done = true → offset < scan.reached.offset) := by
  induction rest generalizing stops done offset with
  | nil =>
    rw [scanRun] at scanned
    obtain ⟨rfl, full⟩ := Prod.mk.inj scanned
    simp [satisfiable.least_le full, full]
  | cons c rest ih =>
    rw [scanRun] at scanned
    split at scanned
    next =>
      refine ⟨(ih scanned).1, fun _ => ?_⟩
      obtain ⟨_, passes⟩ := scanRun_reaches quantifier accepts _ (done + 1) (offset + c.utf8Size) rest
      rw [scanned] at passes
      exact Nat.lt_of_lt_of_le (Nat.lt_add_of_pos_right c.utf8Size_pos) passes.offset_le
    next =>
      obtain ⟨rfl, full⟩ := Prod.mk.inj scanned
      simp [satisfiable.least_le full, full]

theorem skipOne_passes (chars : List Char) (place : Cursor) :
    skipOne chars place = place ∨ ∃ c ∈ chars, place.Passes [c] (skipOne chars place) := by
  rw [skipOne]
  split
  next c rest known =>
    split
    next listed => exact .inr ⟨c, List.contains_iff_mem.mp listed, Cursor.passes_past known⟩
    next => exact .inl rfl
  next => exact .inl rfl

/-- A row of digits may stop where it gets to, unless there are none. -/
theorem scanDigits_reached (stops : List Cursor) (offset : Nat) (rest : List Char) :
    (scanDigits stops offset rest).reached ∈ (scanDigits stops offset rest).stops ∨
      scanDigits stops offset rest = ⟨stops, ⟨offset, rest⟩⟩ := by
  induction rest generalizing stops offset with
  | nil => exact .inr rfl
  | cons c rest ih =>
    rw [scanDigits]
    split
    next =>
      rcases ih (⟨offset + c.utf8Size, rest⟩ :: stops) (offset + c.utf8Size) with last | none
      · exact .inl last
      · rw [none]
        exact .inl List.mem_cons_self
    next => exact .inr rfl

/-- No number was scanned, or it may stop where the scan got to. -/
def Scan.Settled (scan : Scan) : Prop := scan.stops = [] ∨ scan.reached ∈ scan.stops

theorem scanWhole_settled (start : Cursor) : (scanWhole start).Settled := by
  rcases scanDigits_reached [] (skipOne ['+', '-'] start).offset (skipOne ['+', '-'] start).rest with
    last | none
  · exact .inr last
  · exact .inl (congrArg Scan.stops none)

theorem scanPlaces_settled {scan : Scan} (settled : scan.Settled) : (scanPlaces scan).Settled := by
  rw [scanPlaces]
  split
  next rest known =>
    rcases scanDigits_reached (if scan.stops = [] then [] else
        scan.reached.past ['.'] rest :: scan.stops) (scan.reached.past ['.'] rest).offset rest with
      last | none
    · exact .inr last
    · dsimp only
      rw [none]
      split
      next => exact .inl rfl
      next => exact .inr List.mem_cons_self
  next => exact settled

/-- If a number may not stop where its scan got to, there is the beginning of an exponent. -/
theorem scanExponent_settled {scan : Scan} (settled : scan.Settled) : (scanExponent scan).Settled ∨
    ∃ stop ∈ (scanExponent scan).stops, ∃ mark ∈ Numeral.exponentMark,
      stop.Passes mark (scanExponent scan).reached := by
  rw [scanExponent]
  dsimp only
  split
  next => exact .inl settled
  next further =>
    obtain ⟨some, moved⟩ := not_or.mp further
    rcases skipOne_passes ['e', 'E'] scan.reached with unmoved | ⟨letter, listed, passes⟩
    · exact absurd (congrArg Cursor.offset unmoved) moved
    rcases scanDigits_reached scan.stops (skipOne ['+', '-'] (skipOne ['e', 'E'] scan.reached)).offset
      (skipOne ['+', '-'] (skipOne ['e', 'E'] scan.reached)).rest with last | none
    · exact .inl (.inr last)
    · rw [none]
      refine .inr ⟨scan.reached, settled.resolve_left some, ?_⟩
      rcases skipOne_passes ['+', '-'] (skipOne ['e', 'E'] scan.reached) with
        unsigned | ⟨sign, signed, further⟩
      · rw [unsigned]
        exact ⟨[letter], Numeral.mem_exponentMark.mpr ⟨letter, listed, .inl rfl⟩, passes⟩
      · exact ⟨[letter, sign], Numeral.mem_exponentMark.mpr ⟨letter, listed, .inr ⟨sign, signed, rfl⟩⟩,
          passes.trans further⟩

theorem scanNumber_settled (isFloat : Bool) (start : Cursor) : (scanNumber isFloat start).Settled ∨
    (isFloat = true ∧ ∃ stop ∈ (scanNumber isFloat start).stops, ∃ mark ∈ Numeral.exponentMark,
      stop.Passes mark (scanNumber isFloat start).reached) := by
  cases isFloat with
  | false => exact .inl (scanWhole_settled start)
  | true =>
    exact (scanExponent_settled (scanPlaces_settled (scanWhole_settled start))).imp_right
      fun marked => ⟨rfl, marked⟩

/-- If a beginning ends behind a number, but not behind what was passed of its exponent, it ends in a
number with the beginning of an exponent. -/
theorem endsInMark_of_passes {front mark : List Char} {start stop reached : Cursor}
    (inside : start.In front)
    (number : stop ∈ (start.continued more).behind (Numeral.accepts .float))
    (marked : mark ∈ Numeral.exponentMark) (passes : stop.Passes mark reached)
    (before : stop.offset < Text.byteSize front) (beyond : Text.byteSize front ≤ reached.offset) :
    Numeral.EndsInMark front := by
  obtain ⟨word, numeral, accepted⟩ := Cursor.mem_behind.mp number
  obtain ⟨earlier, inside', rfl⟩ :=
    ((inside.continued more).passes numeral).exists_continued before.le
  obtain ⟨first, start_passes⟩ := inside
  have rest : start.rest = word ++ earlier.rest := by
    have whole := numeral.rest_eq
    rw [Cursor.continued_rest, Cursor.continued_rest, ← List.append_assoc] at whole
    exact List.append_cancel_right whole
  have some : earlier.rest ≠ [] := fun nothing =>
    Nat.ne_of_lt before (inside'.rest_eq_nil_iff.mp nothing)
  -- What is left of the beginning is no longer than what was passed.
  obtain ⟨others, same⟩ : ∃ others, mark = earlier.rest ++ others := by
    have total := inside'.offset_add
    have offset := passes.offset_eq
    rcases List.append_eq_append_iff.mp passes.rest_eq with ⟨others, same, -⟩ | ⟨others, same, -⟩
    · exact ⟨others, same⟩
    · have size := congrArg Text.byteSize same
      rw [Text.byteSize_append] at size
      rw [Cursor.continued_offset] at offset
      obtain rfl := (Text.byteSize_eq_zero_iff others).mp (by omega)
      exact ⟨[], by simpa using same.symm⟩
  refine ⟨first, word, earlier.rest, ?_, Numeral.accepts_iff.mp accepted,
    Numeral.exponentMark_front (same ▸ marked) some⟩
  rw [List.append_assoc, ← rest]
  exact start_passes.rest_eq

end Matching
end SentenceGrammar
