import SentenceGrammar.Matching.Scan
import SentenceGrammar.Proofs.Places

/-!
# Words of terminals

A terminal stands for a language of words. Scanning it at a place lists the places behind all of
its words that the text goes on with, the longest word first. Here are the laws of such lists, and
that literals and runs are scanned in this sense.
-/
namespace SentenceGrammar

/-- Whether the quantifier allows exactly `count` occurrences. -/
def Quantifier.admits (quantifier : Quantifier) (count : Nat) : Bool :=
  quantifier.least ≤ count && quantifier.most.all fun most => count ≤ most

/-- Every way to cut a text in two, the longest front first. -/
def Text.cuts : List Char → List (List Char × List Char)
  | [] => [([], [])]
  | c :: rest => (cuts rest).map (fun (front, back) => (c :: front, back)) ++ [([], c :: rest)]

theorem Text.mem_cuts {text front back : List Char} :
    (front, back) ∈ cuts text ↔ front ++ back = text := by
  induction text generalizing front with
  | nil => simp [cuts]
  | cons c rest ih =>
    cases front with
    | nil => simp [cuts]
    | cons d front =>
      simp only [cuts, List.mem_append, List.mem_map, Prod.exists, Prod.mk.injEq, List.cons.injEq,
        List.mem_singleton, reduceCtorEq, false_and, or_false, List.cons_append]
      constructor
      · rintro ⟨a, b, cut, ⟨rfl, rfl⟩, rfl⟩
        exact ⟨rfl, ih.mp cut⟩
      · rintro ⟨rfl, same⟩
        exact ⟨front, back, ih.mpr same, ⟨rfl, rfl⟩, rfl⟩

namespace Cursor

/-- The places behind the words of a language that the text goes on with, the longest word
first. -/
def behind (language : List Char → Bool) (start : Cursor) : List Cursor :=
  ((Text.cuts start.rest).filter fun cut => language cut.1).map
    fun (front, back) => start.past front back

/-- The places behind its words that are not empty. -/
def beyond (language : List Char → Bool) (start : Cursor) : List Cursor :=
  start.behind fun word => !word.isEmpty && language word

theorem mem_behind {language : List Char → Bool} {start stop : Cursor} :
    stop ∈ start.behind language ↔ ∃ word, start.Passes word stop ∧ language word = true := by
  simp only [behind, List.mem_map, List.mem_filter, Prod.exists]
  constructor
  · rintro ⟨front, back, ⟨cut, member⟩, rfl⟩
    exact ⟨front, passes_past (Text.mem_cuts.mp cut).symm, member⟩
  · rintro ⟨word, passes, member⟩
    refine ⟨word, stop.rest, ⟨Text.mem_cuts.mpr passes.rest_eq.symm, member⟩, ?_⟩
    cases stop
    simp only [past, mk.injEq, and_true]
    exact passes.offset_eq.symm

theorem behind_nil (language : List Char → Bool) (offset : Nat) :
    behind language ⟨offset, []⟩ = if language [] then [⟨offset, []⟩] else [] := by
  by_cases empty : language [] = true <;> simp [behind, Text.cuts, empty, past]

theorem behind_cons (language : List Char → Bool) (offset : Nat) (c : Char) (rest : List Char) :
    behind language ⟨offset, c :: rest⟩ =
      behind (fun word => language (c :: word)) ⟨offset + c.utf8Size, rest⟩ ++
        if language [] then [⟨offset, c :: rest⟩] else [] := by
  by_cases empty : language [] = true <;>
    simp [behind, Text.cuts, List.filter_map, Function.comp_def, past, empty, Nat.add_assoc]

theorem behind_congr {first second : List Char → Bool} {start : Cursor}
    (same : ∀ word stop, start.Passes word stop → first word = second word) :
    start.behind first = start.behind second := by
  rw [behind, behind, List.filter_congr]
  rintro ⟨front, back⟩ cut
  exact same front _ (passes_past (Text.mem_cuts.mp cut).symm)

theorem behind_eq_nil {language : List Char → Bool} {start : Cursor}
    (none : ∀ word stop, start.Passes word stop → language word = false) :
    start.behind language = [] := by
  rw [List.eq_nil_iff_forall_not_mem]
  intro stop member
  obtain ⟨word, passes, accepted⟩ := mem_behind.mp member
  simp [none word stop passes] at accepted

theorem behind_eq_beyond (language : List Char → Bool) (start : Cursor) :
    start.behind language = start.beyond language ++ if language [] then [start] else [] := by
  obtain ⟨offset, rest⟩ := start
  cases rest <;> simp [beyond, behind_nil, behind_cons]

theorem beyond_cons (language : List Char → Bool) (offset : Nat) (c : Char) (rest : List Char) :
    beyond language ⟨offset, c :: rest⟩ =
      behind (fun word => language (c :: word)) ⟨offset + c.utf8Size, rest⟩ := by
  simp [beyond, behind_cons]

theorem beyond_nil (language : List Char → Bool) (offset : Nat) :
    beyond language ⟨offset, []⟩ = [] := by
  simp [beyond, behind_nil]

/-- The places are listed from the furthest one to the nearest one. -/
theorem pairwise_behind (language : List Char → Bool) (start : Cursor) :
    (start.behind language).Pairwise fun first second => second.offset < first.offset := by
  obtain ⟨offset, rest⟩ := start
  induction rest generalizing offset language with
  | nil =>
    rw [behind_nil]
    split <;> simp
  | cons c rest ih =>
    rw [behind_cons, List.pairwise_append]
    -- The start itself is the nearest place; all others are behind a character.
    refine ⟨ih _ _, by split <;> simp, ?_⟩
    intro stop member nearest last
    obtain ⟨word, passes, -⟩ := mem_behind.mp member
    split at last
    · obtain rfl := List.mem_singleton.mp last
      have bound := passes.offset_le
      have positive := c.utf8Size_pos
      simp only at bound ⊢
      omega
    · simp at last

end Cursor

namespace Matching

/-- The place behind a literal, if the text goes on with it. -/
def LiteralScan.stops : LiteralScan → List Cursor
  | whole stop => [stop]
  | ended _ | differs _ _ => []

theorem scanLiteral_stops (literal : List Char) (start : Cursor) :
    (scanLiteral literal start).stops = start.behind (· == literal) := by
  induction literal generalizing start with
  | nil =>
    rw [Cursor.behind_eq_beyond, Cursor.beyond, Cursor.behind_eq_nil]
    · rfl
    · intro word _ _
      cases word <;> rfl
  | cons c more ih =>
    obtain ⟨offset, rest⟩ := start
    cases rest with
    | nil => rfl
    | cons d rest =>
      rw [Cursor.behind_cons]
      by_cases same : c = d
      -- The words that begin with the literal are `c` in front of the words that begin with `more`.
      · subst same
        have tail : (fun word => (c :: word == c :: more)) = (· == more) := by
          funext word
          simp
        simpa [scanLiteral, tail, Cursor.past] using ih ⟨offset + c.utf8Size, rest⟩
      · rw [Cursor.behind_eq_nil]
        · simp [scanLiteral, same, LiteralScan.stops]
        · simp [Ne.symm same]

-- Whether so many occurrences were read that no more are required, and none too many.
private theorem admits_of_least {quantifier : Quantifier} {done : Nat}
    (bound : ∀ most, quantifier.most = some most → done ≤ most) :
    quantifier.admits done = decide (quantifier.least ≤ done) := by
  have within : quantifier.most.all (fun most => done ≤ most) = true := by
    cases known : quantifier.most with
    | none => rfl
    | some most => simpa using bound most known
  simp [Quantifier.admits, within]

private theorem not_admits_of_allowsMore {quantifier : Quantifier} {done more : Nat}
    (full : quantifier.allowsMore done = false) : quantifier.admits (done + 1 + more) = false := by
  cases known : quantifier.most with
  | none => simp [Quantifier.allowsMore, known] at full
  | some most =>
    simp only [Quantifier.allowsMore, known, decide_eq_false_iff_not] at full
    simp only [Quantifier.admits, known, Option.all_some, Bool.and_eq_false_iff,
      decide_eq_false_iff_not]
    omega

-- Longer runs go in front of the stops found before, so the induction is for any such stops and
-- for any number of characters read before.
private theorem scanRun_stops_from (quantifier : Quantifier) (accepts : Char → Bool)
    (stops : List Cursor) (done offset : Nat) (rest : List Char)
    (bound : ∀ most, quantifier.most = some most → done ≤ most) :
    (scanRun quantifier accepts stops done offset rest).1.stops =
      Cursor.behind (fun word => word.all accepts && quantifier.admits (done + word.length))
        ⟨offset, rest⟩ ++ stops := by
  have least := admits_of_least bound
  induction rest generalizing stops done offset with
  | nil =>
    rw [scanRun, Cursor.behind_nil]
    by_cases enough : quantifier.least ≤ done <;> simp [enough, least]
  | cons c rest ih =>
    rw [scanRun, Cursor.behind_cons]
    by_cases further : (quantifier.allowsMore done && accepts c) = true
    · obtain ⟨more, accepted⟩ := Bool.and_eq_true_iff.mp further
      have bound' : ∀ most, quantifier.most = some most → done + 1 ≤ most := by
        intro most known
        simpa [Quantifier.allowsMore, known, Nat.succ_le_iff] using more
      rw [if_pos further, ih _ _ _ bound' (admits_of_least bound')]
      -- One more character is read, and one fewer is left for the words to come.
      have shifted : (fun word : List Char =>
            (c :: word).all accepts && quantifier.admits (done + (c :: word).length)) =
          fun word => word.all accepts && quantifier.admits (done + 1 + word.length) := by
        funext word
        rw [List.all_cons, accepted, Bool.true_and, List.length_cons, Nat.add_right_comm,
          Nat.add_assoc]
      rw [shifted]
      by_cases enough : quantifier.least ≤ done <;> simp [enough, least]
    · rw [if_neg further, Cursor.behind_eq_nil]
      · by_cases enough : quantifier.least ≤ done <;> simp [enough, least]
      · intro word _ _
        rcases Bool.and_eq_false_iff.mp (Bool.not_eq_true _ ▸ further) with full | refused
        · rw [List.length_cons, Nat.add_comm word.length, ← Nat.add_assoc,
            not_admits_of_allowsMore full, Bool.and_false]
        · simp [refused]

/-- A run is scanned as the words of accepted characters whose length the quantifier allows. -/
theorem scanRun_stops (quantifier : Quantifier) (accepts : Char → Bool) (start : Cursor) :
    (scanRun quantifier accepts [] 0 start.offset start.rest).1.stops =
      start.behind fun word => word.all accepts && quantifier.admits word.length := by
  have from_zero := scanRun_stops_from quantifier accepts [] 0 start.offset start.rest
    fun _ _ => Nat.zero_le _
  simpa using from_zero

end Matching
end SentenceGrammar
