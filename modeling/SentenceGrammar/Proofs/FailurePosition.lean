import SentenceGrammar.Proofs.EndedAttempts
import SentenceGrammar.Proofs.ScriptFronts
import SentenceGrammar.Proofs.SentenceOrder

/-!
# Where parsing fails

The beginning of a text up to the place of its failure can be completed. If all of a grammar asks for
something and no type recurs in itself at one place, then no longer beginning can be completed: the
failure is at the first character with which nothing goes on. The beginning of an exponent that lacks
its digits is the only exception, as it is passed without being noted.

## Main result

`failure_ends_beginnings`: which beginnings of a text that is not parsed can be completed.
-/
namespace SentenceGrammar
namespace Matching

open Cursor (continued)
open Enumerate
open Text (isBlank)

variable {ε κ : Type} {registry : Registry ε κ} {config : Config} {text front more : List Char}

/-! ### Up to the failure -/

/-- A text that is no script has a beginning that ends at its failure and can be completed. -/
theorem completes_failure (defined : registry.undefinedReferences = [])
    (failed : (scriptRun registry config false text).1.whole = none) :
    ∃ front more, text = front ++ more ∧
      Text.byteSize front = (scriptRun registry config false text).2.failure.place.offset ∧
      ¬((scriptRun registry config true front).1.cut.isEmpty = true ∧
        (scriptRun registry config true front).1.whole.isNone = true) := by
  obtain ⟨front, passes⟩ := failure_inside registry config false text failed
  have position : (scriptRun registry config false text).2.failure.place.offset =
      Text.byteSize front := by simpa using passes.offset_eq
  obtain ⟨more, parts⟩ : ∃ more, text = front ++ more := ⟨_, passes.rest_eq⟩
  refine ⟨front, more, parts, position.symm, ?_⟩
  rintro ⟨uncut, nothing⟩
  rw [List.isEmpty_iff] at uncut
  rw [Option.isNone_iff_eq_none] at nothing
  -- Then the search through the whole text would have failed at the same place, before its end.
  obtain ⟨-, same⟩ := runs_mirror ⟨registry, config, front, more, false⟩ (.inr ⟨nothing, uncut⟩)
  have before := (position_of_nothing nothing).2 defined uncut
  have offset : (scriptRun registry config false (front ++ more)).2.failure.place.offset =
      (scriptRun registry config true front).2.failure.place.offset :=
    congrArg (fun failure => failure.place.offset) (same nothing)
  rw [← parts, position] at offset
  exact absurd before (Nat.not_lt.mpr offset.le)

/-! ### No place behind the failure is visited -/

/-- A sentence ends at each of the places where one is read, in so far as the offset goes. -/
theorem exists_end {place stop : Cursor}
    (member : stop ∈ (oneOf config (canonical registry config text) registry.sentences place).map
      TypeReading.stop) :
    ∃ last ∈ canonicalEnds registry config text place, last.offset = stop.offset := by
  obtain ⟨reading, read, rfl⟩ := List.mem_map.mp member
  obtain ⟨kept, listed, same⟩ : ∃ kept ∈ firstTypeReadings (oneOf config
      (canonical registry config text) registry.sentences place),
        kept.stop.offset = reading.stop.offset := exists_mem_keepNew read List.not_mem_nil
  exact ⟨kept.stop, List.mem_map_of_mem listed, same⟩

section

variable (noMutual : NoMutualLeftRecursion registry.alternatives config text) {completing : Bool}
  (nothing : (scriptRun registry config completing text).1.whole = none)

include noMutual nothing

/-- Every place that is visited behind a sentence is noted, or something further on is. -/
theorem later_noted {count : Nat} {visit : Visit}
    (member : visit ∈ canonicalVisits registry config text count) (some : 0 < count)
    (allowed : config.severalSentences = false → count ≤ 1) :
    visit.1.offset ≤ (scriptRun registry config completing text).2.failure.place.offset :=
  (scriptRun_tries noMutual completing).noted nothing count visit (Nat.zero_le _)
    (Nat.lt_succ_of_lt (count_of_visit member)) some allowed member

/-- If the sentences at a place get to an offset behind it, the failure does. -/
theorem gets_noted {count : Nat} {place : Cursor} (reads : Reads registry config text count place)
    {note stop : Nat} (gets : GetsTo note stop (SentenceTries registry config text place)
      ((oneOf config (canonical registry config text) registry.sentences place).map
        TypeReading.stop)) (further : note ≤ stop) (beyond : place.offset < stop) :
    note ≤ (scriptRun registry config completing text).2.failure.place.offset := by
  rcases gets with ⟨attempt, tries, noticed, noted, far⟩ | ⟨ended, read, far⟩
  · obtain ⟨_, -, all⟩ := (scriptRun_tries noMutual completing).tried (.inr nothing)
    exact far.trans (all.noted attempt ⟨count, place, Nat.zero_le _,
      Nat.lt_succ_of_lt (count_of_visit reads.1), reads, tries⟩ noticed noted)
  · obtain ⟨last, listed, same⟩ := exists_end read
    obtain ⟨later, bound, visit, visited, there⟩ := exists_visit_behind reads.1 listed
    have reached : stop ≤ visit.1.offset := by
      rw [there]
      exact (same ▸ far).trans (Cursor.passes_skipWhile isBlank last).offset_le
    -- The place behind the sentence is not where the first one begins.
    have some : 0 < later := by
      refine Nat.pos_of_ne_zero ?_
      rintro rfl
      obtain rfl := List.mem_singleton.mp visited
      exact Nat.not_le.mpr (Nat.lt_of_lt_of_le beyond reached) (startOf_le reads.1)
    refine (further.trans reached).trans (later_noted noMutual nothing visited some fun single => ?_)
    rw [reads.2 single] at bound
    exact bound

end

section

variable (complete : Complete registry) (sentences : registry.sentences ≠ [])
  (acyclic : NoLeftRecursion registry.alternatives config text)

include complete sentences acyclic

/-- Sentences are not passed over in silence. -/
theorem sentences_move {place : Cursor} (inside : place.In text) :
    MovesFrom place (SentenceTries registry config text place)
      ((oneOf config (canonical registry config text) registry.sentences place).map
        TypeReading.stop) := by
  obtain ⟨chosen, member⟩ := List.exists_mem_of_ne_nil _ sentences
  have registered := Registry.mem_allAlternatives.mpr (.inr member)
  obtain ⟨item, listed⟩ := List.exists_mem_of_ne_nil _ (complete.throughout chosen registered)
  have sensible := complete.sensible
  refine (items_move (canonical_sound registry config text) (sensible.fillable registered)
    ⟨item, listed, complete.not_hollow registered listed⟩ fun pair asked =>
      asked_goes sensible acyclic inside registered asked (Option.some_ne_none pair).symm).mono
        (fun _ tried => ⟨chosen, member, tried⟩) fun stop ended => ?_
  rw [stops_oneOf]
  exact List.mem_flatMap.mpr ⟨chosen, member, ended⟩

variable (failed : (scriptRun registry config false text).1.whole = none)

include failed

/-- Every place that is visited is noted, or something further on is. -/
theorem visit_noted {count : Nat} {visit : Visit}
    (member : visit ∈ canonicalVisits registry config text count)
    (allowed : config.severalSentences = false → count ≤ 1) :
    visit.1.offset ≤ (scriptRun registry config false text).2.failure.place.offset := by
  have noMutual := acyclic.noMutual registry.alternatives config
  rcases Nat.eq_zero_or_pos count with rfl | some
  swap
  · exact later_noted noMutual failed member some allowed
  -- Where the first sentence begins, the attempts at it are noted, or one ends further on.
  obtain rfl := List.mem_singleton.mp member
  exact gets_noted noMutual failed ⟨member, fun _ => rfl⟩
    (sentences_move complete sentences acyclic (canonicalVisits_inside member)) (Nat.le_succ _)
    (Nat.lt_succ_self _)

/-- No sentence that is read ends behind the failure, and no white space behind one. -/
theorem end_noted {count : Nat} {place stop : Cursor}
    (reads : Reads registry config text count place)
    (member : stop ∈ canonicalEnds registry config text place) :
    (stop.skipWhile isBlank).offset ≤
      (scriptRun registry config false text).2.failure.place.offset := by
  obtain ⟨later, bound, visit, visited, same⟩ := exists_visit_behind reads.1 member
  rw [← same]
  refine visit_noted complete sentences acyclic failed visited fun single => ?_
  rw [reads.2 single] at bound
  exact bound

end

/-! ### Behind the failure -/

/-- If an attempt at a sentence in the beginning gets to an offset, then the attempts in the whole
text do. -/
theorem sentence_beyond (sensible : Sensible registry)
    (acyclic : NoLeftRecursion registry.alternatives config (front ++ more)) {quiet : Prop}
    (settled : ReadsFloats registry → quiet) {limit : Nat} (far : Text.byteSize front ≤ limit)
    {place : Cursor} (inside : place.In front) {attempt : Attempt ε κ}
    (tries : SentenceTries registry config front place attempt)
    (leads : attempt.Leads front more limit quiet) :
    Reaches limit (SentenceTries registry config (front ++ more) (place.continued more))
      ((oneOf config (canonical registry config (front ++ more)) registry.sentences
        (place.continued more)).map TypeReading.stop) := by
  obtain ⟨chosen, member, tries⟩ := tries
  have registered := Registry.mem_allAlternatives.mpr (.inr member)
  have types pair (asked : ItemsAsk registry.alternatives config chosen.pattern.items
      (place.continued more) pair) : TypeGoes registry.alternatives config
        (canonical registry config (front ++ more)) (Context.continued more none) pair :=
    asked_goes sensible acyclic (inside.continued more) registered asked (by simp [Context.continued])
  refine (tries.beyond (canonical_traceable sensible acyclic settled) far inside leads
    (sensible.fillable registered)
    (fun slot listed float => settled ⟨chosen, registered, slot, listed, float⟩) types).mono
      (fun _ tried => ⟨chosen, member, tried⟩) fun stop listed => ?_
  rw [stops_oneOf]
  exact List.mem_flatMap.mpr ⟨chosen, member, listed⟩

section

variable (complete : Complete registry) (sentences : registry.sentences ≠ [])
  (acyclic : NoLeftRecursion registry.alternatives config (front ++ more))
  (failed : (scriptRun registry config false (front ++ more)).1.whole = none)
  (behind : (scriptRun registry config false (front ++ more)).2.failure.place.offset <
    Text.byteSize front)

include complete sentences acyclic failed behind

/-- In a beginning that goes on behind the failure, only those places are visited that are visited in
the whole text. -/
theorem visit_traced {count : Nat} {visit : Visit}
    (member : visit ∈ canonicalVisits registry config front count)
    (allowed : config.severalSentences = false → count ≤ 1) :
    visit.1.offset < Text.byteSize front ∧
      visit.continued more ∈ canonicalVisits registry config (front ++ more) count := by
  have noMutual := acyclic.noMutual registry.alternatives config
  induction count generalizing visit with
  | zero =>
    obtain rfl := List.mem_singleton.mp member
    have first : (startOf (front ++ more), true) ∈
        canonicalVisits registry config (front ++ more) 0 := List.mem_singleton_self _
    have noted := visit_noted complete sentences acyclic failed first allowed
    have start : startOf (front ++ more) = ((⟨0, front⟩ : Cursor).continued more).skipWhile isBlank :=
      rfl
    rcases skipBlank_continued (Cursor.in_start front) more with same | ⟨-, late⟩
    · rw [start, same] at noted first
      exact ⟨Nat.lt_of_le_of_lt noted behind, first⟩
    · rw [start] at noted
      exact absurd (le_commonLimit.trans late) (Nat.not_le.mpr (Nat.lt_of_le_of_lt noted behind))
  | succ count ih =>
    obtain ⟨-, place, before, stop, ended, rfl⟩ := mem_visitsAfter_succ member
    have allowed' (single : config.severalSentences = false) : count = 0 :=
      Nat.le_zero.mp (Nat.le_of_succ_le_succ (allowed single))
    obtain ⟨-, before'⟩ := ih before fun single => by simp [allowed' single]
    have inside := canonicalVisits_inside before
    have ended' := (canonicalEnds_restricts noMutual inside).mem ended
    have noted := end_noted complete sentences acyclic failed ⟨before', allowed'⟩ ended'
    rcases skipBlank_continued (canonicalEnds_inside registry config front inside ended) more with
      same | ⟨-, late⟩
    · rw [same] at noted
      have early := Nat.lt_of_le_of_lt noted behind
      exact ⟨early, (canonicalVisits_restrict noMutual (count + 1)).1.mem member
        (Nat.lt_of_lt_of_le early le_commonLimit)⟩
    · exact absurd (le_commonLimit.trans late) (Nat.not_le.mpr (Nat.lt_of_le_of_lt noted behind))

/-- Nothing goes on behind the failure. -/
theorem nothing_behind (settled : ReadsFloats registry → ¬Numeral.EndsInMark front) :
    (scriptRun registry config true front).1.cut = [] ∧
      (scriptRun registry config true front).1.whole = none := by
  have noMutual := acyclic.noMutual registry.alternatives config
  have short := scriptRun_tries noMutual.beginning true
  refine ⟨?_, ?_⟩
  · obtain ⟨further, cut, tried⟩ := short.tried (.inl rfl)
    rw [cut, List.nil_append, List.eq_nil_iff_forall_not_mem]
    intro nodes listed
    obtain ⟨attempt, ⟨count, place, -, fewer, reads, tries⟩, ended, -⟩ := tried.made nodes listed
    obtain ⟨early, visited⟩ := visit_traced complete sentences acyclic failed behind reads.1
      fun single => by simp [reads.2 single]
    -- The attempt that is cut off would be noted or end behind the failure.
    have reached := sentence_beyond complete.sensible acyclic settled (Nat.le_refl _)
      (canonicalVisits_inside reads.1) tries (Attempt.leads_of_ended more ended)
    have bound := gets_noted noMutual failed ⟨visited, reads.2⟩ reached (Nat.le_refl _) early
    exact absurd bound (Nat.not_le.mpr behind)
  · by_contra some
    rcases short.atEnd (Option.isSome_iff_ne_none.mpr some) with nothing | ended
    · cases nothing
    · obtain ⟨count, visit, allowed, member, atEnd⟩ := ended
      obtain ⟨early, -⟩ := visit_traced complete sentences acyclic failed behind member allowed
      have last := (canonicalVisits_inside member).rest_eq_nil_iff.mp atEnd
      exact absurd last (Nat.ne_of_lt early)

end

end Matching

namespace Parser

open Matching (scriptRun parse_eq unfinished_eq NoLeftRecursion ReadsFloats)

variable {ε κ σ : Type}

/-- For every grammar whose types are all defined, the beginning up to the failure of a text that is
not parsed can be completed. If every alternative asks for something, there is a sentence, and no type
recurs in itself at one place of the text, then a longer beginning cannot be completed, unless it ends
in a number with the beginning of an exponent and the grammar takes such numbers. -/
theorem failure_ends_beginnings (registry : Registry ε κ) (config : Config) (surroundings : σ)
    {text : String} {failure : NoMatch} (defined : registry.undefinedReferences = [])
    (failed : outcome (parse text) registry config surroundings = .error (.noMatch failure)) :
    (∃ front more, text.toList = front ++ more ∧ Text.byteSize front = failure.position ∧
      ∃ roots, outcome (parseUnfinished text failure.position) registry config surroundings =
        .ok roots) ∧
    (registry.WellFormed → registry.AsksThroughout → registry.sentences ≠ [] →
      NoLeftRecursion registry.alternatives config text.toList →
        ∀ front more, text.toList = front ++ more → failure.position < Text.byteSize front →
          (ReadsFloats registry → ¬Numeral.EndsInMark front) →
            ∃ later, outcome (parseUnfinished text (Text.byteSize front)) registry config
              surroundings = .error (.noMatch later)) := by
  rw [outcome_parse, parse_eq] at failed
  cases whole : (scriptRun registry config false text.toList).1.whole with
  | some nodes =>
    rw [whole] at failed
    cases failed
  | none =>
    rw [whole] at failed
    obtain rfl := ParseError.noMatch.inj (Except.error.inj failed)
    refine ⟨?_, fun wellFormed throughout sentences acyclic front more parts behind settled => ?_⟩
    · obtain ⟨front, more, parts, position, completes⟩ := Matching.completes_failure defined whole
      have cursor : (scriptRun registry config false text.toList).2.failure.report.position =
          Text.byteSize front := position.symm
      rw [cursor, outcome_parseUnfinished, textBefore_append parts, unfinished_eq,
        String.toList_ofList, if_neg completes]
      exact ⟨front, more, parts, rfl, _, rfl⟩
    · rw [parts] at whole acyclic behind
      obtain ⟨uncut, nothing⟩ := Matching.nothing_behind ⟨wellFormed, throughout, defined⟩ sentences
        acyclic whole behind settled
      rw [outcome_parseUnfinished, textBefore_append parts, unfinished_eq, String.toList_ofList,
        if_pos ⟨List.isEmpty_iff.mpr uncut, Option.isNone_iff_eq_none.mpr nothing⟩]
      exact ⟨_, rfl⟩

/-- A number on its own. -/
def figures : Registry Empty Empty :=
  .ofItems [] [[.placeholder ⟨"x", .builtin .float, .one, ⟨0, 0⟩⟩]]

-- Nothing is asked for at all.
private theorem figures_acyclic (text : List Char) :
    NoLeftRecursion figures.alternatives {} text := by
  intro pair _ again
  obtain ⟨_, ⟨chosen, member, -⟩, -⟩ := Relation.TransGen.head'_iff.mp again
  cases member

-- A number is all that is asked for.
private theorem figures_wellFormed : figures.WellFormed ∧ figures.AsksThroughout := by
  refine ⟨⟨by simp [figures, Registry.ofItems], ?_⟩, ?_⟩
  · intro chosen member item listed
    obtain rfl := List.mem_singleton.mp member
    obtain rfl := List.mem_singleton.mp listed
    exact Quantifier.one_satisfiable
  · intro chosen member
    obtain rfl := List.mem_singleton.mp member
    simp

theorem failure_ends_beginnings_figures :
    ∃ failure, outcome (parse "1e+x") figures {} () = .error (.noMatch failure) ∧
      figures.undefinedReferences = [] ∧ figures.WellFormed ∧ figures.AsksThroughout ∧
        figures.sentences ≠ [] ∧ NoLeftRecursion figures.alternatives {} "1e+x".toList ∧
          failure.position < Text.byteSize "1e+x".toList ∧
            (ReadsFloats figures → ¬Numeral.EndsInMark "1e+x".toList) ∧
              (∃ roots, outcome (parseUnfinished "1e+x" failure.position) figures {} () =
                .ok roots) ∧
                ∃ later, outcome (parseUnfinished "1e+x" (Text.byteSize "1e+x".toList)) figures {}
                  () = .error (.noMatch later) := by
  obtain ⟨failure, failed, before⟩ := exists_failure (outcome (parse "1e+x") figures {} ())
    (fun failure => failure.position < Text.byteSize "1e+x".toList) (by decide +kernel)
  have defined : figures.undefinedReferences = [] := by decide
  have sentences : figures.sentences ≠ [] := by decide
  have acyclic := figures_acyclic "1e+x".toList
  have settled : ReadsFloats figures → ¬Numeral.EndsInMark "1e+x".toList := by
    intro _ ends
    obtain ⟨c, listed, last⟩ := ends.last
    obtain rfl : 'x' = c := by simpa using last
    simp at listed
  have ⟨⟨_, _, _, _, completes⟩, others⟩ := failure_ends_beginnings figures {} () defined failed
  have ⟨wellFormed, throughout⟩ := figures_wellFormed
  exact ⟨failure, failed, defined, wellFormed, throughout, sentences, acyclic,
    of_decide_eq_true before, settled, completes, others wellFormed throughout sentences acyclic
      "1e+x".toList [] (List.append_nil _).symm (of_decide_eq_true before) settled⟩

/-- The beginning of an exponent is passed without being noted, but the end of a beginning cuts it
off. So a longer beginning than the one up to the failure can be completed. -/
theorem position_not_longest_figures :
    figures.undefinedReferences = [] ∧ NoLeftRecursion figures.alternatives {} "1e+x".toList ∧
      ∃ failure, outcome (parse "1e+x") figures {} () = .error (.noMatch failure) ∧
        failure.position < Text.byteSize "1e+".toList ∧
          ∃ roots, outcome (parseUnfinished "1e+x" (Text.byteSize "1e+".toList)) figures {} () =
            .ok roots := by
  obtain ⟨failure, failed, before⟩ := exists_failure (outcome (parse "1e+x") figures {} ())
    (fun failure => failure.position < Text.byteSize "1e+".toList) (by decide +kernel)
  have completes : (outcome (parseUnfinished "1e+x" (Text.byteSize "1e+".toList)) figures {} ()
      ).toOption.isSome = true := by decide +kernel
  refine ⟨by decide, figures_acyclic _, failure, failed, of_decide_eq_true before, ?_⟩
  cases completed : outcome (parseUnfinished "1e+x" (Text.byteSize "1e+".toList)) figures {} () with
  | error _ =>
    rw [completed] at completes
    cases completes
  | ok roots => exact ⟨roots, rfl⟩

end Parser
end SentenceGrammar
