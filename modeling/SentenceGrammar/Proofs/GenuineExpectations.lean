import SentenceGrammar.Proofs.AcceptedLiterals
import SentenceGrammar.Proofs.CompletedBeginnings
import SentenceGrammar.Proofs.NotedExpectations

/-!
# Whatever is expected continues the text

Where a text cannot be read, the failure lists what would have been accepted there. Each entry is
genuine: if the text up to the failure goes on with it, then the new text can be completed. For an
attempt that is noted at the failure is also made in the text up to there, whose end cuts it off, and
it lacks just what is expected. Where white space between sentences or the end of the text is expected,
a sentence ends.

## Main result

`expectations_genuine`: what follows from each entry of the list of what is expected.
-/
namespace SentenceGrammar

variable {ε κ σ : Type}

/-- What the text may go on with where something is expected. A number goes on with any digit. -/
def Expected.Allows : Expected → List Char → Prop
  | .literal rest, more => more = rest.toList
  | .builtin type, more => ∃ c, type.accepts?.getD Text.isAsciiDigit c = true ∧ more = [c]
  | .charClass source, more =>
    ∃ set : CharClass, set.AsWritten ∧ set.source = source ∧ ∃ c, set.contains c = true ∧ more = [c]
  | .sentenceBreak, more => more = [' ']
  | .undefinedType _, _ | .endOfInput, _ => False

namespace Matching

open Cursor (continued)
open Enumerate
open Text (isBlank)

variable {rules : String → List (Alternative ε κ)} {config : Config} {front more : List Char}

/-! ### Where attempts are noted

No attempt is noted in front of the place where the item that it is made at begins. -/

section

variable {start place : Cursor}

theorem literal_noted {text : String}
    (noted : (literalAttempt (ε := ε) (κ := κ) text start).noted = some place) :
    ∃ word, start.Passes word place := by
  rw [literalAttempt] at noted
  cases scanned : scanLiteral text.toList start with
  | whole stop => simp [scanned] at noted
  | ended missing =>
    obtain rfl : start.finish = place := by simpa [scanned] using noted
    exact ⟨_, start.passes_finish⟩
  | differs there missing =>
    obtain rfl : there = place := by simpa [scanned] using noted
    obtain ⟨-, word, passes, -⟩ := scanLiteral_differs scanned
    exact ⟨word, passes⟩

theorem run_noted {slot : Placeholder} {accepts : Char → Bool}
    (noted : (runAttempt (ε := ε) (κ := κ) slot accepts start).noted = some place) :
    ∃ word, start.Passes word place := by
  obtain ⟨-, same⟩ := Option.ite_none_right_eq_some.mp noted
  exact Option.some.inj same ▸ scanRun_reaches _ _ _ _ _ _

theorem number_noted {slot : Placeholder} {type : Builtin}
    (noted : (numberAttempt (ε := ε) (κ := κ) slot type start).noted = some place) :
    ∃ word, start.Passes word place := by
  obtain ⟨-, same⟩ := Option.ite_none_right_eq_some.mp noted
  exact Option.some.inj same ▸ scanNumber_reaches _ start

end

section

variable {ask : String → Cursor → List (TypeReading ε κ)} {place : Cursor}

mutual

theorem TriesUnit.noted_behind (sound : Sound rules config ask) {context : Context}
    {slot : Placeholder} {start : Cursor} {attempt : Attempt ε κ}
    (noted : attempt.noted = some place) :
    TriesUnit rules config ask context slot start attempt → ∃ word, start.Passes word place
  | .number _ _ => number_noted noted
  | .type _ _ inner => inner.noted_behind sound noted

theorem TriesUnits.noted_behind (sound : Sound rules config ask) {context : Context}
    {slot : Placeholder} {count : Nat} {start : Cursor} {attempt : Attempt ε κ}
    (noted : attempt.noted = some place) :
    TriesUnits rules config ask context slot count start attempt → ∃ word, start.Passes word place
  | .separator _ _ _ _ => literal_noted noted
  | .here _ opened first => by
    obtain ⟨_, before⟩ := (mem_openings.mp opened).passes
    obtain ⟨_, behind⟩ := first.noted_behind sound noted
    exact ⟨_, before.trans behind⟩
  | .later _ opened read _ others => by
    obtain ⟨_, before⟩ := (mem_openings.mp opened).passes
    obtain ⟨_, unit⟩ := (derives_of_mem_unit (within_sound sound context) read).passes
    obtain ⟨_, behind⟩ := others.noted_behind sound noted
    exact ⟨_, (before.trans unit).trans behind⟩

theorem TriesItem.noted_behind (sound : Sound rules config ask) {context : Context} {item : Item}
    {start : Cursor} {attempt : Attempt ε κ} (noted : attempt.noted = some place) :
    TriesItem rules config ask context item start attempt → ∃ word, start.Passes word place
  | .literal _ => literal_noted noted
  | .run _ _ => run_noted noted
  | .single _ _ unit => unit.noted_behind sound noted
  | .repetition _ _ units => units.noted_behind sound noted

theorem TriesItems.noted_behind (sound : Sound rules config ask) {context : Context}
    {list : List Item} {start : Cursor} {attempt : Attempt ε κ} (noted : attempt.noted = some place) :
    TriesItems rules config ask context list start attempt → ∃ word, start.Passes word place
  | .here first => first.noted_behind sound noted
  | .later read others => by
    obtain ⟨_, item⟩ := (derives_of_mem_item (within_sound sound context) read).passes
    obtain ⟨_, behind⟩ := others.noted_behind sound noted
    exact ⟨_, item.trans behind⟩

theorem TriesType.noted_behind (sound : Sound rules config ask) {name : String} {start : Cursor}
    {attempt : Attempt ε κ} (noted : attempt.noted = some place) :
    TriesType rules config ask name start attempt → ∃ word, start.Passes word place
  | .alternative _ items => items.noted_behind sound noted

end

end

/-! ### Attempts that are noted at the end of a beginning

In the whole text, such an attempt fails there or goes on. In the beginning it is cut off there, since
it got to the place in the same way. -/

variable (front more) in
/-- An attempt in the whole text and the same one in its beginning, which the end cuts off. -/
structure Attempt.Broken (attempt earlier : Attempt ε κ) : Prop where
  ended : earlier.ended = true
  inside : earlier.start.In front
  start : attempt.start = earlier.start.continued more
  slot : attempt.slot = earlier.slot
  kind : attempt.kind = earlier.kind

section

variable {start place : Cursor} (inside : start.In front)
  (last : place.offset = Text.byteSize front)

include inside last

theorem literal_broken {text : String}
    (noted : (literalAttempt (ε := ε) (κ := κ) text (start.continued more)).noted = some place) :
    (literalAttempt (ε := ε) (κ := κ) text (start.continued more)).Broken front more
      (literalAttempt text start) := by
  have ended : (literalAttempt (ε := ε) (κ := κ) text start).ended = true := by
    rw [literalAttempt, scanLiteral_continued] at noted
    cases scanned : scanLiteral text.toList start with
    | whole stop => simp [scanned] at noted
    | ended missing => simp [literalAttempt, scanned]
    | differs there missing =>
      -- The beginning goes on where it differs, so this is not its end.
      obtain rfl : there.continued more = place := by simpa [scanned] using noted
      obtain ⟨going, word, passes, -⟩ := scanLiteral_differs scanned
      exact absurd ((inside.passes passes).rest_eq_nil_iff.mpr last) going
  refine ⟨ended, ?_, ?_, ?_, ?_⟩
  · rwa [literalAttempt_start]
  · rw [literalAttempt_start, literalAttempt_start]
  · rw [literalAttempt_slot, literalAttempt_slot]
  · rw [literalAttempt_kind, literalAttempt_kind]

theorem run_broken {slot : Placeholder} {accepts : Char → Bool}
    (noted : (runAttempt (ε := ε) (κ := κ) slot accepts (start.continued more)).noted =
      some place) :
    (runAttempt (ε := ε) (κ := κ) slot accepts (start.continued more)).Broken front more
      (runAttempt slot accepts start) := by
  refine ⟨?_, inside, rfl, rfl, rfl⟩
  obtain ⟨further, same⟩ := Option.ite_none_right_eq_some.mp noted
  obtain ⟨_, passes⟩ := scanRun_reaches slot.quantifier accepts [] 0 start.offset start.rest
  rw [runAttempt]
  cases scanned : scanRun slot.quantifier accepts [] 0 start.offset start.rest with
  | mk scan extendable =>
    rw [scanned] at passes
    by_contra stopped
    simp only [Bool.and_eq_true, List.isEmpty_iff, not_and] at stopped
    -- Then the run in the whole text is the same, and stops in front of the end.
    have longer : scanRun slot.quantifier accepts [] 0 (start.continued more).offset
        (start.continued more).rest = (scan.continued more, extendable) :=
      scanRun_continued scanned stopped
    rw [longer] at further same
    obtain rfl := Option.some.inj same
    exact stopped further ((inside.passes passes).rest_eq_nil_iff.mpr last)

theorem number_broken {slot : Placeholder} {type : Builtin}
    (noted : (numberAttempt (ε := ε) (κ := κ) slot type (start.continued more)).noted =
      some place) :
    (numberAttempt (ε := ε) (κ := κ) slot type (start.continued more)).Broken front more
      (numberAttempt slot type start) := by
  refine ⟨?_, inside, rfl, rfl, rfl⟩
  obtain ⟨-, same⟩ := Option.ite_none_right_eq_some.mp noted
  obtain ⟨_, passes⟩ := scanNumber_reaches (decide (type = .float)) start
  rw [numberAttempt]
  by_contra stopped
  rw [List.isEmpty_iff] at stopped
  have longer : scanNumber (decide (type = .float)) (start.continued more) =
      (scanNumber (decide (type = .float)) start).continued more := scanNumber_continued stopped
  rw [longer] at same
  obtain rfl := Option.some.inj same
  exact stopped ((inside.passes passes).rest_eq_nil_iff.mpr last)

end

section

variable {long short : String → Cursor → List (TypeReading ε κ)} {place : Cursor}

mutual

theorem TriesUnit.beginning (fronts : Fronts rules config front more long short)
    (last : place.offset = Text.byteSize front) {context context' : Context} {slot : Placeholder}
    {start start' : Cursor} {attempt : Attempt ε κ} (outer : context' = context.continued more)
    (there : start' = start.continued more) (inside : start.In front)
    (noted : attempt.noted = some place) :
    TriesUnit rules config long context' slot start' attempt →
      ∃ earlier, TriesUnit rules config short context slot start earlier ∧
        attempt.Broken front more earlier
  | .number _ target => by
    subst there
    exact ⟨_, .number start target, number_broken inside last noted⟩
  | .type target other inner => by
    obtain ⟨earlier, tried, broken⟩ := inner.beginning fronts last there inside noted
    refine ⟨earlier, .type target (fun same => other ?_) tried, broken⟩
    rw [outer, same, there]
    rfl

theorem TriesUnits.beginning (fronts : Fronts rules config front more long short)
    (last : place.offset = Text.byteSize front) {context context' : Context} {slot : Placeholder}
    {count : Nat} {start start' : Cursor} {attempt : Attempt ε κ}
    (outer : context' = context.continued more) (there : start' = start.continued more)
    (inside : start.In front) (noted : attempt.noted = some place) :
    TriesUnits rules config long context' slot count start' attempt →
      ∃ earlier, TriesUnits rules config short context slot count start earlier ∧
        attempt.Broken front more earlier
  | .separator _ further later separator => by
    subst there
    exact ⟨_, .separator start further later separator, literal_broken inside last noted⟩
  | .here further opened first => by
    subst there
    obtain ⟨_, behind⟩ := first.noted_behind fronts.whole noted
    obtain ⟨opening, opened', same⟩ :=
      (openings_restricts count inside).exists_of_map opened (last ▸ behind.offset_le)
    obtain ⟨_, passes⟩ := (mem_openings.mp opened').passes
    obtain ⟨earlier, tried, broken⟩ :=
      first.beginning fronts last outer same (inside.passes passes) noted
    exact ⟨earlier, .here further opened' tried, broken⟩
  | .later further opened read moved others => by
    subst there
    have within := fronts.within context
    rw [outer] at read
    -- The opening and the unit are in front of what is noted, so the beginning has them as well.
    have unit := derives_of_mem_unit within.whole read
    obtain ⟨_, through⟩ := unit.passes
    obtain ⟨_, behind⟩ := others.noted_behind fronts.whole noted
    obtain ⟨opening, opened', same⟩ := (openings_restricts count inside).exists_of_map opened
      (last ▸ (through.trans behind).offset_le)
    obtain ⟨_, before⟩ := (mem_openings.mp opened').passes
    have inside' := inside.passes before
    rw [same] at read
    obtain ⟨found, read', same'⟩ := (unit_restricts within slot inside').exists_of_map read
      (last ▸ behind.offset_le)
    obtain ⟨_, passes⟩ := (derives_of_mem_unit within.beginning read').passes
    obtain ⟨earlier, tried, broken⟩ :=
      others.beginning fronts last outer same' (inside'.passes passes) noted
    rw [same'] at moved
    exact ⟨earlier, .later further opened' read' (by simpa using moved) tried, broken⟩

theorem TriesItem.beginning (fronts : Fronts rules config front more long short)
    (last : place.offset = Text.byteSize front) {context context' : Context} {item : Item}
    {start start' : Cursor} {attempt : Attempt ε κ} (outer : context' = context.continued more)
    (there : start' = start.continued more) (inside : start.In front)
    (noted : attempt.noted = some place) :
    TriesItem rules config long context' item start' attempt →
      ∃ earlier, TriesItem rules config short context item start earlier ∧
        attempt.Broken front more earlier
  | .literal _ => by
    subst there
    exact ⟨_, .literal start, literal_broken inside last noted⟩
  | .run _ target => by
    subst there
    exact ⟨_, .run start target, run_broken inside last noted⟩
  | .single target one unit => by
    obtain ⟨earlier, tried, broken⟩ := unit.beginning fronts last outer there inside noted
    exact ⟨earlier, .single target one tried, broken⟩
  | .repetition target several units => by
    obtain ⟨earlier, tried, broken⟩ := units.beginning fronts last outer there inside noted
    exact ⟨earlier, .repetition target several tried, broken⟩

theorem TriesItems.beginning (fronts : Fronts rules config front more long short)
    (last : place.offset = Text.byteSize front) {context context' : Context} {list : List Item}
    {start start' : Cursor} {attempt : Attempt ε κ} (outer : context' = context.continued more)
    (there : start' = start.continued more) (inside : start.In front)
    (noted : attempt.noted = some place) :
    TriesItems rules config long context' list start' attempt →
      ∃ earlier, TriesItems rules config short context list start earlier ∧
        attempt.Broken front more earlier
  | .here first => by
    obtain ⟨earlier, tried, broken⟩ := first.beginning fronts last outer there inside noted
    exact ⟨earlier, .here tried, broken⟩
  | .later read others => by
    subst there
    have within := fronts.within context
    obtain ⟨_, behind⟩ := others.noted_behind fronts.whole noted
    rw [outer] at read
    obtain ⟨found, read', same⟩ := (item_restricts within _ inside).exists_of_map read
      (last ▸ behind.offset_le)
    obtain ⟨_, passes⟩ := (derives_of_mem_item within.beginning read').passes
    obtain ⟨earlier, tried, broken⟩ :=
      others.beginning fronts last outer same (inside.passes passes) noted
    exact ⟨earlier, .later read' tried, broken⟩

theorem TriesType.beginning (fronts : Fronts rules config front more long short)
    (last : place.offset = Text.byteSize front) {name : String} {start start' : Cursor}
    {attempt : Attempt ε κ} (there : start' = start.continued more) (inside : start.In front)
    (noted : attempt.noted = some place) :
    TriesType rules config long name start' attempt →
      ∃ earlier, TriesType rules config short name start earlier ∧
        attempt.Broken front more earlier
  | .alternative member items => by
    have outer : some (name, start') = Context.continued more (some (name, start)) := by
      rw [there]
      rfl
    obtain ⟨earlier, tried, broken⟩ := items.beginning fronts last outer there inside noted
    exact ⟨earlier, .alternative member tried, broken⟩

end

end

variable {registry : Registry ε κ}

/-- What is attempted at the sentences of a text and noted at the end of its beginning is attempted
at the sentences of the beginning, whose end cuts it off. -/
theorem sentence_beginning
    (noMutual : NoMutualLeftRecursion registry.alternatives config (front ++ more))
    {start place : Cursor} {attempt : Attempt ε κ} (inside : start.In front)
    (noted : attempt.noted = some place) (last : place.offset = Text.byteSize front)
    (tries : SentenceTries registry config (front ++ more) (start.continued more) attempt) :
    ∃ earlier, SentenceTries registry config front start earlier ∧
      attempt.Broken front more earlier := by
  obtain ⟨chosen, member, tried⟩ := tries
  have alone : (none : Context) = Context.continued more none := rfl
  obtain ⟨earlier, tried', broken⟩ :=
    tried.beginning (canonical_fronts noMutual) last alone rfl inside noted
  exact ⟨earlier, ⟨chosen, member, tried'⟩, broken⟩

/-- Whatever may follow where the attempt in the whole text expects something is what the one in the
beginning lacks. -/
theorem Attempt.Broken.lacks (written : registry.ClassesAsWritten) {attempt earlier : Attempt ε κ}
    {place : Cursor} {expected : Expected} {next : List Char}
    (broken : attempt.Broken front more earlier) (last : place.offset = Text.byteSize front)
    (expects : attempt.Expects registry place expected) (allows : expected.Allows next) :
    earlier.Lacks next := by
  cases expects with
  | @literal text word missing kind passes parts =>
    obtain rfl : next = missing := by simpa [Expected.Allows] using allows
    refine .literal (broken.kind ▸ kind) ?_
    -- The attempt got through all that the beginning has behind its start.
    rw [broken.start] at passes
    obtain ⟨there, inside, rfl⟩ :=
      ((broken.inside.continued more).passes passes).exists_continued last.le
    have whole := passes.rest_eq
    rw [Cursor.continued_rest, Cursor.continued_rest, inside.rest_eq_nil_iff.mpr last,
      List.nil_append] at whole
    rw [parts, List.append_cancel_right whole]
  | @target slot fills _ registered =>
    have fills' : earlier.slot = some slot := broken.slot ▸ fills
    cases target : slot.target with
    | builtin type =>
      simp only [target, Target.expected, Expected.Allows] at allows
      obtain ⟨c, accepted, rfl⟩ := allows
      cases single : type.accepts? with
      | none =>
        rw [single] at accepted
        exact .digit fills' target single accepted
      | some accepts =>
        rw [single, Option.getD_some] at accepted
        exact .character fills' (by rw [target, Target.single?, single]) accepted
    | charClass set =>
      simp only [target, Target.expected, Expected.Allows] at allows
      obtain ⟨other, written', same, c, accepted, rfl⟩ := allows
      obtain ⟨chosen, member, listed⟩ := registered
      have written := written chosen member slot listed
      rw [target] at written
      obtain rfl := CharClass.AsWritten.unique written' written same
      exact .character fills' (by rw [target, Target.single?]) accepted
    | named type =>
      simp only [target, Target.expected, Expected.Allows] at allows

/-! ### Where sentences end -/

/-- Visiting the end of the text comes to accepting it. -/
theorem accepts_of_visitsEnd {text : String}
    (noMutual : NoMutualLeftRecursion registry.alternatives config text.toList)
    (ended : VisitsEnd registry config text.toList) : Accepts registry config text := by
  obtain ⟨count, visit, allowed, visited, atEnd⟩ := ended
  have inside : (firstPlace text).In text.toList := inside_skipBlank (Cursor.in_start _)
  refine accepts_iff_visit.mpr ⟨count, allowed, visit, ?_, atEnd⟩
  rw [visitsAfter_congr passEnds_inside inside (firstPlace_settled text) fun place inside =>
    passEnds_eq noMutual inside]
  exact visited

/-- If a sentence ends at the end of a text, then the search visits the end of the text that goes on
with white space. -/
theorem visitsEnd_blank
    (noMutual : NoMutualLeftRecursion registry.alternatives config (front ++ [' '])) {count : Nat}
    {place : Cursor} (visited : (place, false) ∈ canonicalVisits registry config front count)
    (allowed : config.severalSentences = false → count ≤ 1)
    (last : place.offset = Text.byteSize front) :
    VisitsEnd registry config (front ++ [' ']) := by
  cases count with
  | zero => cases List.mem_singleton.mp visited
  | succ count =>
    obtain ⟨new, before, opened, stop, ended, same⟩ := mem_visitsAfter_succ visited
    obtain ⟨rfl, unseparated⟩ := Prod.mk.inj same
    have atEnd : stop.offset = Text.byteSize front := by
      simp only [ne_eq, decide_not, Bool.false_eq, Bool.not_eq_false',
        decide_eq_true_eq] at unseparated
      exact unseparated.symm.trans last
    -- The sentence has text, so it begins in front of the end in both texts.
    have inside := canonicalVisits_inside opened
    have early : before.offset < commonLimit front [' '] := by
      refine Nat.lt_of_lt_of_le (Nat.lt_of_le_of_ne inside.offset_le fun here => new ?_)
        le_commonLimit
      rw [last, ← here]
      exact seen_of_mem_visitsAfter opened
    have opened' := (canonicalVisits_restrict noMutual count).1.mem opened early
    have ended' := (canonicalEnds_restricts noMutual inside).mem ended
    obtain ⟨later, bound, visit, visited', there⟩ := exists_visit_behind opened' ended'
    refine ⟨later, visit, fun single => bound.trans (allowed single), visited', ?_⟩
    -- Behind the sentence there is only the white space.
    have inside' := canonicalEnds_inside registry config front inside ended
    have blank : ((stop.continued [' ']).skipWhile isBlank).rest = [] := by
      have nothing := inside'.rest_eq_nil_iff.mpr atEnd
      simp [Cursor.skipWhile, Cursor.past, continued, nothing, isBlank]
    have skipped := inside_skipBlank (inside'.continued [' '])
    exact (canonicalVisits_inside visited').rest_eq_nil_iff.mpr
      (there.trans (skipped.rest_eq_nil_iff.mp blank))

/-! ### Going on -/

/-- If something has grounds to be expected at the end of a beginning, then the beginning can be
completed if it goes on with that. -/
theorem completes_of_expected (sensible : Sensible registry) (written : registry.ClassesAsWritten)
    (acyclic : ∀ text, NoLeftRecursion registry.alternatives config text)
    (unblank : NoLeadingBlank registry config) {expected : Expected} {next : List Char}
    (grounds : ScriptGrounds registry config (front ++ more) (Text.byteSize front) expected)
    (allows : expected.Allows next) :
    ¬((scriptRun registry config true (front ++ next)).1.cut.isEmpty = true ∧
      (scriptRun registry config true (front ++ next)).1.whole.isNone = true) := by
  have noMutual text := (acyclic text).noMutual registry.alternatives config
  cases grounds with
  | attempt reads tries noted last expects =>
    obtain ⟨chosen, member, tried⟩ := tries
    obtain ⟨_, behind⟩ := tried.noted_behind (canonical_sound registry config _) noted
    obtain ⟨start, inside, rfl, reads'⟩ :=
      reads_beginning (noMutual _) reads (last ▸ behind.offset_le)
    obtain ⟨earlier, tries', broken⟩ :=
      sentence_beginning (noMutual _) inside noted last ⟨chosen, member, tried⟩
    by_cases some : next = []
    -- The beginning alone can be completed in any case.
    · subst some
      rw [List.append_nil]
      rintro ⟨uncut, -⟩
      obtain ⟨nodes, cut, -⟩ := exists_cut_of_attempt (noMutual _) reads' tries' broken.ended
      rw [List.isEmpty_iff.mp uncut] at cut
      cases cut
    · exact completes_of_attempt sensible (acyclic _) unblank reads' tries' broken.ended
        (broken.lacks written last expects allows) some
  | sentenceBreak visited allowed last =>
    obtain rfl : next = [' '] := allows
    obtain ⟨⟨place, may⟩, visited', same⟩ := visit_beginning (noMutual _) visited last.le
    obtain ⟨rfl, closed⟩ := Prod.mk.inj same
    obtain rfl : false = may := closed
    have ended := visitsEnd_blank (noMutual _) visited' allowed last
    rw [← String.toList_ofList (l := front ++ [' '])] at ended
    obtain ⟨root, parsed⟩ := accepts_of_visitsEnd (noMutual _) ended
    rw [parse_eq, String.toList_ofList] at parsed
    cases whole : (scriptRun registry config false (front ++ [' '])).1.whole with
    | none =>
      rw [whole] at parsed
      cases parsed
    | some nodes =>
      rw [← List.append_nil (front ++ [' '])] at whole
      exact completes_of_whole whole
  | endOfInput => exact allows.elim

/-- An attempt expects nothing but text. -/
theorem Attempt.Expects.text {attempt : Attempt ε κ} {place : Cursor} {expected : Expected}
    (expects : attempt.Expects registry place expected) :
    (∃ text, expected = .literal text) ∨ (∃ type, expected = .builtin type) ∨
      ∃ source, expected = .charClass source := by
  cases expects with
  | literal => exact .inl ⟨_, rfl⟩
  | @target slot _ terminal _ =>
    cases target : slot.target with
    | builtin type => exact .inr (.inl ⟨type, rfl⟩)
    | charClass set => exact .inr (.inr ⟨set.source, rfl⟩)
    | named type => exact absurd target (terminal type)

/-- No type that is not defined has grounds to be expected. -/
theorem ScriptGrounds.defined {text : List Char} {offset : Nat} {expected : Expected}
    (grounds : ScriptGrounds registry config text offset expected) (name : String) :
    expected ≠ .undefinedType name := by
  cases grounds with
  | attempt _ _ _ _ expects =>
    rcases expects.text with ⟨_, rfl⟩ | ⟨_, rfl⟩ | ⟨_, rfl⟩ <;> exact nofun
  | sentenceBreak => exact nofun
  | endOfInput => exact nofun

/-- Where the end of the text has grounds to be expected, the search visits the end of the
beginning. -/
theorem ScriptGrounds.visitsEnd
    (noMutual : NoMutualLeftRecursion registry.alternatives config (front ++ more))
    (grounds : ScriptGrounds registry config (front ++ more) (Text.byteSize front) .endOfInput) :
    VisitsEnd registry config front := by
  cases grounds with
  | attempt _ _ _ _ expects =>
    rcases expects.text with ⟨_, other⟩ | ⟨_, other⟩ | ⟨_, other⟩ <;> cases other
  | endOfInput visited allowed last =>
    obtain ⟨earlier, member, rfl⟩ := visit_beginning noMutual visited last.le
    have atEnd := (canonicalVisits_inside member).rest_eq_nil_iff.mpr last
    exact ⟨_, earlier, allowed, member, atEnd⟩

end Matching

namespace Parser

open Matching (scriptRun parse_eq unfinished_eq NoLeftRecursion NoLeadingBlank ScriptGrounds)

/-- In every grammar whose types are all defined, in which no type recurs in itself at one place,
nothing hollow has to be repeated, and nothing that comes first in a sentence takes white space:
where a text cannot be parsed, nothing is listed twice as expected and no undefined type is, the text
up to there can be completed if it goes on with whatever is expected, and it is parsed itself if its
end is expected. -/
theorem expectations_genuine {registry : Registry ε κ} {config : Config} {surroundings : σ}
    (wellFormed : registry.WellFormed) (written : registry.ClassesAsWritten)
    (solid : registry.RepeatsSolid) (defined : registry.undefinedReferences = [])
    (acyclic : ∀ text, NoLeftRecursion registry.alternatives config text)
    (unblank : NoLeadingBlank registry config) {text : String} {failure : NoMatch}
    (failed : outcome (parse text) registry config surroundings = .error (.noMatch failure)) :
    ∃ front rest, text = front ++ rest ∧ Text.byteSize front.toList = failure.position ∧
      failure.expected.Nodup ∧ ∀ expected ∈ failure.expected,
        (∀ name, expected ≠ .undefinedType name) ∧
          (expected = .endOfInput →
            ∃ root, outcome (parse front) registry config surroundings = .ok root) ∧
          ∀ more, expected.Allows more →
            ∃ roots, outcome (parseUnfinished (front ++ String.ofList more)
              (Text.byteSize (front ++ String.ofList more).toList)) registry config surroundings =
                .ok roots := by
  have noMutual text := (acyclic text).noMutual registry.alternatives config
  rw [outcome_parse, parse_eq] at failed
  cases whole : (scriptRun registry config false text.toList).1.whole with
  | some nodes =>
    rw [whole] at failed
    cases failed
  | none =>
    rw [whole] at failed
    obtain rfl := ParseError.noMatch.inj (Except.error.inj failed)
    obtain ⟨front, passes⟩ := Matching.failure_inside registry config false text.toList whole
    have position : (scriptRun registry config false text.toList).2.failure.place.offset =
        Text.byteSize front := by simpa using passes.offset_eq
    obtain ⟨rest, parts⟩ : ∃ rest, text.toList = front ++ rest := ⟨_, passes.rest_eq⟩
    have grounded := Matching.scriptRun_grounded defined (noMutual text.toList) false
    have each expected (listed : expected ∈
        (scriptRun registry config false text.toList).2.failure.expected) :
        ScriptGrounds registry config (front ++ rest) (Text.byteSize front) expected := by
      rw [← position, ← parts]
      exact grounded.each expected listed
    refine ⟨String.ofList front, String.ofList rest, ?parts, ?position, grounded.distinct,
      fun expected listed => ⟨(each expected listed).defined, fun last => ?ended,
        fun more allows => ?going⟩⟩
    case parts => rw [← String.ofList_append, ← parts, String.ofList_toList]
    case position =>
      rw [String.toList_ofList]
      exact position.symm
    case ended =>
      subst last
      have ended := (each _ listed).visitsEnd (noMutual _)
      rw [← String.toList_ofList (l := front)] at ended
      obtain ⟨root, parsed⟩ := Matching.accepts_of_visitsEnd (noMutual _) ended
      rw [outcome_parse, parsed]
      exact ⟨root, rfl⟩
    case going =>
      have completes := Matching.completes_of_expected ⟨wellFormed, solid, defined⟩ written acyclic
        unblank (each expected listed) allows
      rw [outcome_parseUnfinished, textBefore_end, unfinished_eq, String.toList_append,
        String.toList_ofList, String.toList_ofList, if_neg completes]
      exact ⟨_, rfl⟩

/-- A word that is a sentence, alone or with one of three letters, and a longer one. -/
def going : Registry Empty Empty :=
  .ofItems [] [[.literal "go" ⟨0, 0⟩],
    [.literal "go" ⟨0, 0⟩,
      .placeholder ⟨"x", .charClass ⟨false, [('x', 'z')], "x-z"⟩, .one, ⟨0, 0⟩⟩],
    [.literal "good" ⟨0, 0⟩]]

-- Whatever holds of the words and of the letter holds of all items.
private theorem going_items {Holds : Item → Prop}
    (literal : ∀ text span, text ≠ "" → Holds (.literal text span))
    (letter : Holds (.placeholder
      ⟨"x", .charClass ⟨false, [('x', 'z')], "x-z"⟩, .one, ⟨0, 0⟩⟩)) :
    ∀ chosen ∈ going.allAlternatives, ∀ item ∈ chosen.pattern.items, Holds item := by
  have known : going.allAlternatives.flatMap (·.pattern.items) =
      [.literal "go" ⟨0, 0⟩, .literal "go" ⟨0, 0⟩,
        .placeholder ⟨"x", .charClass ⟨false, [('x', 'z')], "x-z"⟩, .one, ⟨0, 0⟩⟩,
        .literal "good" ⟨0, 0⟩] := rfl
  intro chosen member item listed
  have among := known ▸ List.mem_flatMap.mpr ⟨chosen, member, listed⟩
  simp only [List.mem_cons, List.not_mem_nil, or_false] at among
  obtain rfl | rfl | rfl | rfl := among
  · exact literal _ _ (by decide)
  · exact literal _ _ (by decide)
  · exact letter
  · exact literal _ _ (by decide)

-- There are no types, so nothing is asked for.
private theorem going_acyclic (config : Config) (text : List Char) :
    NoLeftRecursion going.alternatives config text := by
  intro pair _ again
  obtain ⟨_, ⟨chosen, member, -⟩, -⟩ := Relation.TransGen.head'_iff.mp again
  cases member

private theorem going_unblank (config : Config) : NoLeadingBlank going config := by
  intro sentence member item opens
  simp only [going, Registry.ofItems, List.map_cons, List.map_nil, List.mem_cons, List.not_mem_nil,
    or_false] at member
  obtain rfl | rfl | rfl := member
  all_goals
    rw [opens.eq_literal (by decide)]
    simp [Item.TakesBlank, Text.isBlank]

theorem expectations_genuine_going :
    going.WellFormed ∧ going.ClassesAsWritten ∧ going.RepeatsSolid ∧
      going.undefinedReferences = [] ∧
        (∀ text, NoLeftRecursion going.alternatives { severalSentences := false } text) ∧
          NoLeadingBlank going { severalSentences := false } ∧
            ∃ failure, outcome (parse "go?") going { severalSentences := false } () =
                .error (.noMatch failure) ∧
              failure.expected = [.charClass "[x-z]", .literal "od", .endOfInput] ∧
                (Expected.charClass "[x-z]").Allows ['y'] ∧
                  ∃ front rest, "go?" = front ++ rest ∧
                    Text.byteSize front.toList = failure.position ∧
                      (∃ root, outcome (parse front) going { severalSentences := false } () =
                        .ok root) ∧
                        ∃ roots, outcome (parseUnfinished (front ++ String.ofList ['y'])
                          (Text.byteSize (front ++ String.ofList ['y']).toList)) going
                            { severalSentences := false } () = .ok roots := by
  have wellFormed : going.WellFormed :=
    ⟨by simp [going, Registry.ofItems],
      going_items (fun _ _ some => some) Quantifier.one_satisfiable⟩
  have lettered : CharClass.AsWritten ⟨false, [('x', 'z')], "x-z"⟩ := by rfl
  have written : going.ClassesAsWritten := by
    have slots : ∀ chosen ∈ going.allAlternatives, ∀ item ∈ chosen.pattern.items, ∀ slot,
        item = .placeholder slot → slot.target.AsWritten :=
      going_items (fun _ _ _ _ => Item.noConfusion)
        fun slot same => Item.placeholder.inj same ▸ lettered
    exact fun chosen member slot listed => slots chosen member _ listed slot rfl
  have solid : going.RepeatsSolid :=
    going_items (fun _ _ _ repeated => repeated.elim) fun repeated => absurd rfl repeated.1
  have defined : going.undefinedReferences = [] := by decide
  obtain ⟨failure, failed, expected⟩ := exists_failure
    (outcome (parse "go?") going { severalSentences := false } ())
    (fun failure => failure.expected = [.charClass "[x-z]", .literal "od", .endOfInput])
    (by decide +kernel)
  have expected := of_decide_eq_true expected
  have letter : (Expected.charClass "[x-z]").Allows ['y'] :=
    ⟨_, lettered, by decide, 'y', by decide, rfl⟩
  have acyclic := going_acyclic { severalSentences := false }
  have unblank := going_unblank { severalSentences := false }
  obtain ⟨front, rest, parts, position, -, each⟩ :=
    expectations_genuine wellFormed written solid defined acyclic unblank failed
  obtain ⟨-, -, goes⟩ := each (.charClass "[x-z]") (by simp [expected])
  obtain ⟨-, ends, -⟩ := each .endOfInput (by simp [expected])
  exact ⟨wellFormed, written, solid, defined, acyclic, unblank, failure, failed, expected, letter,
    front, rest, parts, position, ends rfl, goes _ letter⟩

/-- Nothing is read as the type that has to be repeated, so what is expected in front of it does not
get the text anywhere. -/
theorem expectation_spurious_hollowInside :
    (hollowInside ⟨2, some 2⟩).WellFormed ∧ (hollowInside ⟨2, some 2⟩).ClassesAsWritten ∧
      (hollowInside ⟨2, some 2⟩).undefinedReferences = [] ∧
        (∀ text, NoLeftRecursion (hollowInside ⟨2, some 2⟩).alternatives {} text) ∧
          NoLeadingBlank (hollowInside ⟨2, some 2⟩) {} ∧
            (∃ failure, outcome (parse "a") (hollowInside ⟨2, some 2⟩) {} () =
                .error (.noMatch failure) ∧
              failure.position = 1 ∧ failure.expected = [.literal "b"]) ∧
              (Expected.literal "b").Allows ['b'] ∧
                ¬∃ roots, outcome (parseUnfinished "ab" 2) (hollowInside ⟨2, some 2⟩) {} () =
                  .ok roots := by
  have slots : ∀ chosen ∈ (hollowInside ⟨2, some 2⟩).allAlternatives,
      ∀ item ∈ chosen.pattern.items, ∀ slot, item = .placeholder slot → slot.target.AsWritten :=
    hollowInside_items (fun _ _ _ _ => Item.noConfusion)
      fun slot same => Item.placeholder.inj same ▸ trivial
  obtain ⟨failure, failed, expected⟩ := exists_failure
    (outcome (parse "a") (hollowInside ⟨2, some 2⟩) {} ())
    (fun failure => failure.position = 1 ∧ failure.expected = [.literal "b"]) (by decide +kernel)
  refine ⟨hollowInside_wellFormed (satisfiable_upToTwo (Nat.le_refl 2)),
    fun chosen member slot listed => slots chosen member _ listed slot rfl, by decide,
    hollowInside_acyclic _, hollowInside_unblank _, ⟨failure, failed, of_decide_eq_true expected⟩,
    rfl, ?_⟩
  rintro ⟨roots, completes⟩
  have stuck : (outcome (parseUnfinished "ab" 2) (hollowInside ⟨2, some 2⟩) {} ()
      ).toOption.isNone = true := by decide +kernel
  rw [completes] at stuck
  cases stuck

end Parser
end SentenceGrammar
