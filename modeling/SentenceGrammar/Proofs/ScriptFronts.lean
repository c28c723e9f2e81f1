import SentenceGrammar.Proofs.ScriptAttempts

/-!
# Scripts and what is visited in their beginnings

The search for a script through a text and the one through a beginning of it visit the same places, as
far as these are in the beginning and white space does not go on behind its end.
-/
namespace SentenceGrammar.Matching

open Cursor (continued)
open Text (isBlank)

variable {ε κ : Type} {registry : Registry ε κ} {config : Config} {front more : List Char}

/-- The offset behind the last place of the beginning at which a sentence may begin in the whole
text as well. The end of the beginning is no such place if white space goes on there. -/
def commonLimit (front more : List Char) : Nat :=
  if more.takeWhile isBlank = [] then Text.byteSize front + 1 else Text.byteSize front

theorem commonLimit_le : commonLimit front more ≤ Text.byteSize front + 1 := by
  rw [commonLimit]
  split <;> omega

theorem le_commonLimit : Text.byteSize front ≤ commonLimit front more := by
  rw [commonLimit]
  split <;> omega

/-- Behind a place of the beginning, white space ends at the same place in both texts, or it goes on
behind the last common place in both. -/
theorem skipBlank_continued {stop : Cursor} (inside : stop.In front) (more : List Char) :
    (stop.continued more).skipWhile isBlank = (stop.skipWhile isBlank).continued more ∨
      (commonLimit front more ≤ (stop.skipWhile isBlank).offset ∧
        commonLimit front more ≤ ((stop.continued more).skipWhile isBlank).offset) := by
  have passes := Cursor.passes_skipWhile isBlank stop
  by_cases ended : (stop.skipWhile isBlank).rest = []
  swap
  · exact .inl (Cursor.skipWhile_continued ended)
  -- All that is left of the beginning is blank.
  have last := (inside.passes passes).rest_eq_nil_iff.mp ended
  have blank : stop.rest.takeWhile isBlank = stop.rest := by
    have parts := passes.rest_eq
    rw [ended, List.append_nil] at parts
    exact parts.symm
  have skipped : ((stop.continued more).skipWhile isBlank) =
      ⟨Text.byteSize front + Text.byteSize (more.takeWhile isBlank), more.dropWhile isBlank⟩ := by
    have total := inside.offset_add
    rw [Cursor.skipWhile, Cursor.past, Cursor.continued_rest, List.takeWhile_append,
      List.dropWhile_append, if_pos (congrArg List.length blank), Cursor.continued_offset,
      Text.byteSize_append]
    have nothing : stop.rest.dropWhile isBlank = [] := ended
    simp only [nothing, List.isEmpty_nil, if_true, Cursor.mk.injEq, and_true]
    omega
  rw [skipped, last, commonLimit]
  by_cases unblank : more.takeWhile isBlank = []
  · left
    have rest : more.dropWhile isBlank = more := by
      have parts := List.takeWhile_append_dropWhile (p := isBlank) (l := more)
      rwa [unblank, List.nil_append] at parts
    rw [unblank, rest, Cursor.continued, ended, last]
    rfl
  · right
    rw [if_neg unblank]
    exact ⟨Nat.le_refl _, Nat.le_add_right _ _⟩

/-- The same visit in a longer text. -/
def Visit.continued (more : List Char) (visit : Visit) : Visit :=
  (visit.1.continued more, visit.2)

/-- The visits of the beginning and those of the whole text are the same as far as possible. -/
def VisitsRestrict (front more : List Char) (long short : List Visit) : Prop :=
  long.filter (fun visit => visit.1.offset < commonLimit front more) =
    (short.filter fun visit => visit.1.offset < commonLimit front more).map (Visit.continued more)

namespace VisitsRestrict

variable {long short : List Visit} {visit : Visit}

theorem exists_mem (restrict : VisitsRestrict front more long short) (member : visit ∈ long)
    (early : visit.1.offset < commonLimit front more) :
    ∃ earlier ∈ short, visit = earlier.continued more := by
  have found : visit ∈ long.filter fun visit => visit.1.offset < commonLimit front more :=
    List.mem_filter.mpr ⟨member, decide_eq_true early⟩
  rw [restrict] at found
  obtain ⟨earlier, listed, same⟩ := List.mem_map.mp found
  exact ⟨earlier, (List.mem_filter.mp listed).1, same.symm⟩

theorem mem (restrict : VisitsRestrict front more long short) (member : visit ∈ short)
    (early : visit.1.offset < commonLimit front more) : visit.continued more ∈ long := by
  have found : visit ∈ short.filter fun visit => visit.1.offset < commonLimit front more :=
    List.mem_filter.mpr ⟨member, decide_eq_true early⟩
  have mapped := List.mem_map_of_mem (f := Visit.continued more) found
  rw [← restrict] at mapped
  exact (List.mem_filter.mp mapped).1

theorem seen (restrict : VisitsRestrict front more long short) {seen seen' : List Nat}
    (before : ∀ offset, decide (offset < commonLimit front more) = true →
      (offset ∈ seen ↔ offset ∈ seen')) (offset : Nat)
    (early : decide (offset < commonLimit front more) = true) :
    offset ∈ long.map (fun visit => visit.1.offset) ++ seen ↔
      offset ∈ short.map (fun visit => visit.1.offset) ++ seen' := by
  rw [List.mem_append, List.mem_append, before offset early]
  refine or_congr_left ?_
  simp only [List.mem_map, decide_eq_true_eq] at early ⊢
  constructor
  · rintro ⟨visit, member, rfl⟩
    obtain ⟨earlier, listed, rfl⟩ := restrict.exists_mem member early
    exact ⟨earlier, listed, rfl⟩
  · rintro ⟨visit, member, rfl⟩
    exact ⟨_, restrict.mem member early, rfl⟩

end VisitsRestrict

private theorem filter_map_congr {α β γ : Type} {list : List α} {f : α → β} {g : α → γ}
    {kind : β → Bool} {kind' : γ → Bool} {h : β → γ}
    (same : ∀ a ∈ list, kind' (g a) = kind (f a) ∧ (kind (f a) = true → g a = h (f a))) :
    (list.map g).filter kind' = ((list.map f).filter kind).map h := by
  induction list with
  | nil => rfl
  | cons a rest ih =>
    obtain ⟨kinds, equal⟩ := same a List.mem_cons_self
    have others := ih fun b member => same b (List.mem_cons_of_mem _ member)
    rw [List.map_cons, List.map_cons, List.filter_cons, List.filter_cons, kinds, others]
    split
    next holds => rw [List.map_cons, equal holds]
    next => rfl

/-- A sentence and the white space behind it lead to the same place, as far as possible. -/
private theorem visit_behind_continued {stop : Cursor} (inside : stop.In front) :
    let visit : Visit := (stop.skipWhile isBlank,
      decide ((stop.skipWhile isBlank).offset ≠ stop.offset))
    let visit' : Visit := ((stop.continued more).skipWhile isBlank,
      decide (((stop.continued more).skipWhile isBlank).offset ≠ (stop.continued more).offset))
    decide (visit'.1.offset < commonLimit front more) =
        decide (visit.1.offset < commonLimit front more) ∧
      (decide (visit.1.offset < commonLimit front more) = true →
        visit' = Visit.continued more visit) := by
  rcases skipBlank_continued inside more with same | ⟨late, late'⟩
  · simp only [same, Cursor.continued_offset, Visit.continued]
    exact ⟨trivial, fun _ => trivial⟩
  · simp only [decide_eq_decide, decide_eq_true_eq]
    exact ⟨by omega, fun early => absurd early (Nat.not_lt.mpr late)⟩

theorem successors_restrict
    (noMutual : NoMutualLeftRecursion registry.alternatives config (front ++ more)) {visit : Visit}
    (inside : visit.1.In front) :
    VisitsRestrict front more
      (successors (canonicalEnds registry config (front ++ more)) (visit.continued more))
      (successors (canonicalEnds registry config front) visit) := by
  rw [successors, successors]
  by_cases may : visit.2 = true
  swap
  · rw [if_neg may, if_neg (show ¬(visit.continued more).2 = true from may)]
    rfl
  rw [if_pos may, if_pos (show (visit.continued more).2 = true from may)]
  have ends := canonicalEnds_restricts noMutual inside
  rw [VisitsRestrict]
  -- Sentences that end behind the beginning lead to places behind it.
  have early : ((canonicalEnds registry config (front ++ more) (visit.1.continued more)).map
        fun stop => ((stop.skipWhile isBlank,
          decide ((stop.skipWhile isBlank).offset ≠ stop.offset)) : Visit)).filter
            (fun visit => visit.1.offset < commonLimit front more) =
      (((canonicalEnds registry config front visit.1).map (continued more)).map
        fun stop => ((stop.skipWhile isBlank,
          decide ((stop.skipWhile isBlank).offset ≠ stop.offset)) : Visit)).filter
            (fun visit => visit.1.offset < commonLimit front more) := by
    rw [← ends, List.filter_map, List.filter_map, List.filter_filter]
    congr 1
    refine List.filter_congr fun stop _ => ?_
    have passes := (Cursor.passes_skipWhile isBlank stop).offset_le
    have limit : commonLimit front more ≤ Text.byteSize front + 1 := commonLimit_le
    simp only [Function.comp_apply]
    rw [Bool.eq_iff_iff]
    simp only [decide_eq_true_eq, Bool.and_eq_true]
    omega
  refine early.trans ?_
  rw [List.map_map]
  exact filter_map_congr fun stop member => visit_behind_continued
    (canonicalEnds_inside registry config front inside member)

-- A sentence leads no further back, so from behind the last common place to behind it.
private theorem successors_late {text : List Char} {visit later : Visit} {limit : Nat}
    (late : decide (visit.1.offset < limit) = false)
    (member : later ∈ successors (canonicalEnds registry config text) visit) :
    decide (later.1.offset < limit) = false := by
  obtain ⟨-, stop, listed, rfl⟩ := mem_successors.mp member
  obtain ⟨reading, kept, rfl⟩ := List.mem_map.mp listed
  obtain ⟨_, passes⟩ := (derives_of_mem_oneOf (canonical_sound registry config text)
    ((keepNew_sublist _ _ _).subset kept)).2.passes
  have further := (passes.trans (Cursor.passes_skipWhile isBlank reading.stop)).offset_le
  simp only [decide_eq_false_iff_not, Nat.not_lt] at late ⊢
  exact late.trans further

private theorem start_restrict (front more : List Char) :
    VisitsRestrict front more [(startOf (front ++ more), true)] [(startOf front, true)] := by
  have start : startOf (front ++ more) =
    ((⟨0, front⟩ : Cursor).continued more).skipWhile isBlank := rfl
  rw [VisitsRestrict, start, startOf]
  rcases skipBlank_continued (Cursor.in_start front) more with same | ⟨late, late'⟩
  · rw [same]
    by_cases early : (Cursor.skipWhile isBlank ⟨0, front⟩).offset < commonLimit front more <;>
      simp [early, Visit.continued]
  · simp only [List.filter_cons, List.filter_nil, decide_eq_true_eq, Nat.not_lt.mpr late,
      Nat.not_lt.mpr late', if_false, List.map_nil]

private theorem visits_next (registry : Registry ε κ) (config : Config) (text : List Char)
    (count : Nat) :
    canonicalVisits registry config text (count + 1) =
        keepNew (fun visit => visit.1.offset) (canonicalLayer registry config text count).seen
          ((canonicalVisits registry config text count).flatMap
            (successors (canonicalEnds registry config text))) ∧
      (canonicalLayer registry config text (count + 1)).seen =
        (canonicalVisits registry config text (count + 1)).map (fun visit => visit.1.offset) ++
          (canonicalLayer registry config text count).seen := by
  have next : canonicalLayer registry config text (count + 1) =
      (canonicalLayer registry config text count).next (canonicalEnds registry config text) :=
    after_succ _ _ _
  have visits := congrArg Layer.visits next
  refine ⟨visits, ?_⟩
  rw [show canonicalVisits registry config text (count + 1) = _ from visits, next]
  rfl

-- All that follows the visits of one layer.
private theorem flatMap_successors
    (noMutual : NoMutualLeftRecursion registry.alternatives config (front ++ more))
    {long short : List Visit} (restrict : VisitsRestrict front more long short)
    (inside : ∀ visit ∈ short, visit.1.In front) :
    VisitsRestrict front more
      (long.flatMap (successors (canonicalEnds registry config (front ++ more))))
      (short.flatMap (successors (canonicalEnds registry config front))) := by
  rw [VisitsRestrict, filter_flatMap_of_late _ _ fun _ _ late _ => successors_late late,
    filter_flatMap_of_late _ _ fun _ _ late _ => successors_late late, restrict, List.flatMap_map,
    List.map_flatMap]
  exact List.flatMap_congr fun visit member =>
    successors_restrict noMutual (inside visit (List.mem_filter.mp member).1)

/-- In both texts, the same common places are visited after each number of sentences. -/
theorem canonicalVisits_restrict
    (noMutual : NoMutualLeftRecursion registry.alternatives config (front ++ more)) (count : Nat) :
    VisitsRestrict front more (canonicalVisits registry config (front ++ more) count)
        (canonicalVisits registry config front count) ∧
      ∀ offset, decide (offset < commonLimit front more) = true →
        (offset ∈ (canonicalLayer registry config (front ++ more) count).seen ↔
          offset ∈ (canonicalLayer registry config front count).seen) := by
  induction count with
  | zero =>
    have start := start_restrict front more
    have nothing offset (_ : decide (offset < commonLimit front more) = true) :
        offset ∈ ([] : List Nat) ↔ offset ∈ ([] : List Nat) := Iff.rfl
    exact ⟨start, start.seen nothing⟩
  | succ count ih =>
    obtain ⟨restrict, before⟩ := ih
    obtain ⟨visits, seen⟩ := visits_next registry config (front ++ more) count
    obtain ⟨visits', seen'⟩ := visits_next registry config front count
    have reached := flatMap_successors noMutual restrict fun _ => canonicalVisits_inside
    have next : VisitsRestrict front more (canonicalVisits registry config (front ++ more) (count + 1))
        (canonicalVisits registry config front (count + 1)) := by
      have kept {list : List Visit} {seen seen' : List Nat}
          (same : ∀ offset, decide (offset < commonLimit front more) = true →
            (offset ∈ seen ↔ offset ∈ seen')) :
          (keepNew (fun visit : Visit => visit.1.offset) seen list).filter
              (fun visit => visit.1.offset < commonLimit front more) =
            keepNew (fun visit => visit.1.offset) seen'
              (list.filter fun visit => visit.1.offset < commonLimit front more) :=
        filter_keepNew (fun offset => offset < commonLimit front more) same list
      rw [VisitsRestrict, visits, visits', kept before, kept fun _ _ => Iff.rfl, reached, keepNew_map]
      rfl
    refine ⟨next, ?_⟩
    rw [seen, seen']
    exact next.seen before

end SentenceGrammar.Matching
