import SentenceGrammar.Proofs.FailurePosition
import SentenceGrammar.Proofs.LeadingBlanks
import SentenceGrammar.Proofs.PatternWords

/-!
# Going on with what is missing

An attempt that the end of a text cuts off lacks something: the rest of its literal, another character
of its run, or a digit of its number. If the text goes on with just that, then the attempt gets to the
new end, and what comes behind it is attempted there. So the longer text can be completed.

Only white space could get in the way: where a sentence begins at the end of the text, white space is
in front of it and no part of it.

## Main result

`completes_of_attempt`: a text that goes on with what an attempt lacks can be completed.
-/
namespace SentenceGrammar.Matching

open Cursor (continued)
open Enumerate
open Text (isAsciiDigit isBlank)

variable {ε κ : Type}

/-! ### One more character -/

theorem scanRun_more {quantifier : Quantifier} {accepts : Char → Bool} {stops stops' : List Cursor}
    {done offset : Nat} {rest : List Char} {c : Char}
    (extendable : (scanRun quantifier accepts stops done offset rest).2 = true)
    (ended : (scanRun quantifier accepts stops done offset rest).1.reached.rest = [])
    (accepted : accepts c = true) :
    (scanRun quantifier accepts stops' done offset (rest ++ [c])).1.reached.rest = [] := by
  induction rest generalizing stops stops' done offset with
  | nil =>
    have further : quantifier.allowsMore done = true := extendable
    simp [scanRun, further, accepted]
  | cons d rest ih =>
    rw [List.cons_append]
    rw [scanRun] at extendable ended ⊢
    split at ended
    next further =>
      rw [if_pos further] at extendable ⊢
      exact ih extendable ended
    next => cases ended

theorem scanDigits_more {stops stops' : List Cursor} {offset : Nat} {rest : List Char} {c : Char}
    (ended : (scanDigits stops offset rest).reached.rest = []) (digit : isAsciiDigit c = true) :
    (scanDigits stops' offset (rest ++ [c])).reached.rest = [] := by
  induction rest generalizing stops stops' offset with
  | nil => simp [scanDigits, digit]
  | cons d rest ih =>
    rw [List.cons_append]
    rw [scanDigits] at ended ⊢
    split at ended
    next other =>
      rw [if_pos other]
      exact ih ended
    next => cases ended

/-- No sign is a digit. -/
theorem skipOne_digit {c : Char} (digit : isAsciiDigit c = true) (offset : Nat) :
    skipOne ['+', '-'] ⟨offset, [c]⟩ = ⟨offset, [c]⟩ := by
  have other : ¬['+', '-'].contains c = true := by
    intro sign
    rcases List.mem_pair.mp (List.contains_iff_mem.mp sign) with rfl | rfl <;> cases digit
  simp only [skipOne, if_neg other]

-- Digits with an optional sign in front.
private theorem signed_more {stops stops' : List Cursor} {start : Cursor} {c : Char}
    (ended : (scanDigits stops (skipOne ['+', '-'] start).offset
      (skipOne ['+', '-'] start).rest).reached.rest = []) (digit : isAsciiDigit c = true) :
    (scanDigits stops' (skipOne ['+', '-'] (start.continued [c])).offset
      (skipOne ['+', '-'] (start.continued [c])).rest).reached.rest = [] := by
  by_cases nothing : start.rest = []
  · have last : start.continued [c] = ⟨start.offset, [c]⟩ := by rw [continued, nothing]; rfl
    rw [last, skipOne_digit digit]
    have ended : (scanDigits [] start.offset []).reached.rest = [] := rfl
    have last : (scanDigits stops' start.offset ([] ++ [c])).reached.rest = [] :=
      scanDigits_more ended digit
    exact last
  · rw [skipOne_continued nothing]
    exact scanDigits_more ended digit

theorem scanPlaces_more {scan : Scan} {c : Char} (going : scan.reached.rest ≠ [])
    (ended : (scanPlaces scan).reached.rest = []) (digit : isAsciiDigit c = true) :
    (scanPlaces (scan.continued [c])).reached.rest = [] := by
  obtain ⟨stops, ⟨offset, rest⟩⟩ := scan
  cases rest with
  | nil => exact absurd rfl going
  | cons d rest =>
    by_cases point : d = '.'
    · subst point
      exact scanDigits_more ended digit
    · rw [scanPlaces] at ended
      split at ended
      next same => exact absurd (List.cons.inj same).1 point
      next => cases ended

theorem scanExponent_more {scan : Scan} {c : Char} (going : scan.reached.rest ≠ [])
    (ended : (scanExponent scan).reached.rest = []) (digit : isAsciiDigit c = true) :
    (scanExponent (scan.continued [c])).reached.rest = [] := by
  have skipped : skipOne ['e', 'E'] (scan.continued [c]).reached =
      (skipOne ['e', 'E'] scan.reached).continued [c] := skipOne_continued going
  rw [scanExponent] at ended ⊢
  rw [skipped]
  by_cases stays : scan.stops = [] ∨ (skipOne ['e', 'E'] scan.reached).offset = scan.reached.offset
  · simp only [if_pos stays] at ended
    exact absurd ended going
  · have stays' : ¬((scan.continued [c]).stops = [] ∨
        ((skipOne ['e', 'E'] scan.reached).continued [c]).offset =
          (scan.continued [c]).reached.offset) := by
      simpa [Scan.continued] using stays
    simp only [if_neg stays] at ended
    simp only [if_neg stays']
    exact signed_more ended digit

/-- Where the end of the text stops the scan of a number, the scan takes one more digit. -/
theorem scanNumber_more {isFloat : Bool} {start : Cursor} {c : Char}
    (ended : (scanNumber isFloat start).reached.rest = []) (digit : isAsciiDigit c = true) :
    (scanNumber isFloat (start.continued [c])).reached.rest = [] := by
  cases isFloat with
  | false => exact signed_more ended digit
  | true =>
    rw [scanNumber, if_pos rfl] at ended ⊢
    -- The first part that gets to the end takes the digit, and nothing is left for the others.
    by_cases whole : (scanWhole start).reached.rest = []
    · have last : (scanWhole (start.continued [c])).reached.rest = [] := signed_more whole digit
      rw [scanPlaces_atEnd last, scanExponent_atEnd last]
      exact last
    rw [scanWhole_continued whole]
    by_cases places : (scanPlaces (scanWhole start)).reached.rest = []
    · have last := scanPlaces_more whole places digit
      rw [scanExponent_atEnd last]
      exact last
    rw [scanPlaces_continued places]
    exact scanExponent_more places ended digit

/-! ### What an attempt lacks -/

/-- The attempt may go on with these characters. -/
inductive Attempt.Lacks (attempt : Attempt ε κ) : List Char → Prop where
  | literal {text : String} {more : List Char} (kind : attempt.kind = .literal text)
      (parts : text.toList = attempt.start.rest ++ more) : attempt.Lacks more
  | character {slot : Placeholder} {accepts : Char → Bool} {c : Char}
      (fills : attempt.slot = some slot) (single : slot.target.single? = some accepts)
      (accepted : accepts c = true) : attempt.Lacks [c]
  | digit {slot : Placeholder} {type : Builtin} {c : Char} (fills : attempt.slot = some slot)
      (target : slot.target = .builtin type) (numeric : type.accepts? = none)
      (digit : isAsciiDigit c = true) : attempt.Lacks [c]

variable {registry : Registry ε κ} {config : Config} {front more : List Char}
  {attempt : Attempt ε κ}

/-- An attempt that ends a beginning gets to the end of the text, if the text goes on with what it
lacks. -/
theorem Attempt.Lacks.leads (lacks : attempt.Lacks more) (ended : attempt.ended = true) :
    attempt.Leads front more (Text.byteSize (front ++ more)) True where
  literal other start inside same := by
    subst same
    cases lacks with
    | character fills => cases (literalAttempt_slot other start).symm.trans fills
    | digit fills => cases (literalAttempt_slot other start).symm.trans fills
    | @literal text _ kind parts =>
      obtain rfl := NodeKind.literal.inj ((literalAttempt_kind other start).symm.trans kind)
      rw [literalAttempt_start] at parts
      have whole := (inside.continued more).finish_offset
      refine .inr ⟨_, Cursor.mem_behind.mpr ⟨_, (start.continued more).passes_finish, ?_⟩, whole.ge⟩
      rw [parts]
      exact beq_self_eq_true _
  run slot accepts start inside single satisfiable same := by
    subst same
    cases lacks with
    | literal kind => exact absurd kind (runKind_plain slot _)
    | digit fills target numeric =>
      obtain rfl := Option.some.inj fills
      rw [target, Target.single?, numeric] at single
      cases single
    | @character _ accepts' c fills single' accepted =>
      obtain rfl := Option.some.inj fills
      obtain rfl := Option.some.inj (single.symm.trans single')
      simp only [runAttempt, Bool.and_eq_true, List.isEmpty_iff] at ended
      have last : (scanRun slot.quantifier accepts [] 0 start.offset
          (start.rest ++ [c])).1.reached.rest = [] := scanRun_more ended.1 ended.2 accepted
      obtain ⟨_, passes⟩ := scanRun_reaches slot.quantifier accepts [] 0 start.offset
        (start.rest ++ [c])
      have reached := (inside.continued [c]).passes passes
      exact run_reaches satisfiable (reached.rest_eq_nil_iff.mp last).ge
  number slot type start inside target numeric _ same := by
    subst same
    cases lacks with
    | literal kind => cases kind
    | character fills single =>
      obtain rfl := Option.some.inj fills
      rw [target, Target.single?, numeric] at single
      cases single
    | @digit _ _ c fills _ _ digit =>
      simp only [numberAttempt, List.isEmpty_iff] at ended
      have last := scanNumber_more ended digit
      obtain ⟨_, passes⟩ := scanNumber_reaches (decide (type = .float)) (start.continued [c])
      have reached := (inside.continued [c]).passes passes
      exact .inl ⟨_, rfl, _, if_pos (.inr last), (reached.rest_eq_nil_iff.mp last).ge⟩

/-- What is lacking of an item that the text ends in front of does not begin with white space, unless
the item accepts it. -/
theorem Attempt.Lacks.unblank (lacks : attempt.Lacks more) {item : Item}
    (fills : attempt.Fills item) (unblank : ¬item.TakesBlank) (ended : attempt.start.rest = []) :
    more.takeWhile isBlank = [] := by
  have first {c : Char} {rest : List Char} (shape : more = c :: rest) (other : ¬isBlank c = true) :
      more.takeWhile isBlank = [] := by
    rw [shape, List.takeWhile_cons_of_neg other]
  cases lacks with
  | @literal text _ kind parts =>
    cases item with
    | placeholder slot => exact absurd kind (fills.2 text)
    | literal other span =>
      obtain rfl := NodeKind.literal.inj (kind.symm.trans fills.2)
      cases more with
      | nil => rfl
      | cons c rest =>
        refine first rfl fun blank => unblank ⟨c, ?_, blank⟩
        rw [parts, ended]
        rfl
  | @character slot accepts c given single accepted =>
    cases item with
    | literal other span => cases fills.1.symm.trans given
    | placeholder slot' =>
      obtain rfl := Option.some.inj (given.symm.trans fills.1)
      exact first rfl fun blank => unblank ⟨accepts, single, c, blank, accepted⟩
  | digit _ _ _ digit =>
    refine first rfl fun blank => ?_
    rw [not_digit_of_blank blank] at digit
    cases digit

/-! ### Completing the longer text -/

/-- A sentence in which something is lacking is read at the same place in the text that goes on with
it. -/
theorem reads_continued
    (noMutual : NoMutualLeftRecursion registry.alternatives config (front ++ more))
    (unblank : NoLeadingBlank registry config) {count : Nat} {place : Cursor}
    (reads : Reads registry config front count place)
    (tries : SentenceTries registry config front place attempt) (lacks : attempt.Lacks more) :
    Reads registry config (front ++ more) count (place.continued more) := by
  have inside := canonicalVisits_inside reads.1
  have early : place.offset < commonLimit front more := by
    by_cases ended : place.rest = []
    swap
    · refine Nat.lt_of_lt_of_le (Nat.lt_of_le_of_ne inside.offset_le ?_) le_commonLimit
      exact mt inside.rest_eq_nil_iff.mpr ended
    -- The item comes first in the sentence, so it does not begin with white space.
    obtain ⟨sentence, member, tried⟩ := tries
    obtain ⟨here, item, opens, fills⟩ :=
      tried.first (canonical_sound registry config front) ended
    have settled := lacks.unblank fills (unblank sentence member item opens) (here ▸ ended)
    rw [commonLimit, if_pos settled]
    exact Nat.lt_succ_of_le inside.offset_le
  exact ⟨(canonicalVisits_restrict noMutual count).1.mem reads.1 early, reads.2⟩

/-- If a text goes on with what an attempt lacks that is cut off at its end, then it can be
completed. -/
theorem completes_of_attempt (sensible : Sensible registry)
    (acyclic : NoLeftRecursion registry.alternatives config (front ++ more))
    (unblank : NoLeadingBlank registry config) {count : Nat} {place : Cursor}
    (reads : Reads registry config front count place)
    (tries : SentenceTries registry config front place attempt) (ended : attempt.ended = true)
    (lacks : attempt.Lacks more) (some : more ≠ []) :
    ¬((scriptRun registry config true (front ++ more)).1.cut.isEmpty = true ∧
      (scriptRun registry config true (front ++ more)).1.whole.isNone = true) := by
  -- If not, the failure is in front of the end of the longer text.
  rintro ⟨uncut, nothing⟩
  rw [List.isEmpty_iff] at uncut
  rw [Option.isNone_iff_eq_none] at nothing
  have before := (position_of_nothing nothing).2 sensible.defined uncut
  have noMutual := acyclic.noMutual registry.alternatives config
  have inside := canonicalVisits_inside reads.1
  have longer : Text.byteSize front < Text.byteSize (front ++ more) := by
    have size := Text.byteSize_append front more
    have some := mt (Text.byteSize_eq_zero_iff more).mp some
    omega
  -- But the attempt that was cut off gets to the end now, and the failure is no less far.
  have reached := sentence_beyond sensible acyclic (fun _ => trivial) longer.le inside tries
    (lacks.leads ended)
  have bound := gets_noted noMutual nothing (reads_continued noMutual unblank reads tries lacks)
    reached (Nat.le_refl _) (Nat.lt_of_le_of_lt inside.offset_le longer)
  exact Nat.not_le.mpr before bound

end SentenceGrammar.Matching
