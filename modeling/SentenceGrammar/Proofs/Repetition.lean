import SentenceGrammar.Proofs.Terminals

/-!
# Reading repetitions

A repetition remembers its tails by place and by a count that stops growing when nothing depends on
it any more. Whatever holds of the tails, however far their units really are counted, can be proved
by looking at one more unit only.
-/
namespace SentenceGrammar

/-- The count `done` stands for `real` units. -/
def Quantifier.Counts (quantifier : Quantifier) (real done : Nat) : Prop :=
  match quantifier.most with
  | some most => done = real ∧ real ≤ most
  | none => done = min real (max quantifier.least 1)

namespace Matching

variable {ε κ : Type} {quantifier : Quantifier} {real done : Nat}

theorem counts_zero (quantifier : Quantifier) : quantifier.Counts 0 0 := by
  unfold Quantifier.Counts
  split <;> simp

theorem counts_next (counts : quantifier.Counts real done)
    (more : quantifier.allowsMore done = true) :
    quantifier.Counts (real + 1) (nextCount quantifier done) := by
  cases known : quantifier.most with
  | some most =>
    simp only [Quantifier.Counts, known] at counts
    simp only [Quantifier.allowsMore, known, decide_eq_true_eq] at more
    simp only [Quantifier.Counts, nextCount, known]
    omega
  | none =>
    simp only [Quantifier.Counts, known] at counts
    simp only [Quantifier.Counts, nextCount, known]
    omega

theorem allowsMore_of_counts (counts : quantifier.Counts real done) :
    quantifier.allowsMore done = quantifier.allowsMore real := by
  cases known : quantifier.most with
  | some most =>
    simp only [Quantifier.Counts, known] at counts
    rw [counts.1]
  | none => simp [Quantifier.allowsMore, known]

theorem admits_of_counts (counts : quantifier.Counts real done) :
    quantifier.admits real = decide (quantifier.least ≤ done) := by
  cases known : quantifier.most with
  | some most =>
    simp only [Quantifier.Counts, known] at counts
    simp [Quantifier.admits, known, counts.1, counts.2]
  | none =>
    simp only [Quantifier.Counts, known] at counts
    simp only [Quantifier.admits, known, Option.all_none, Bool.and_true, decide_eq_decide]
    omega

/-- No count confuses the first unit with later ones. -/
theorem zero_iff_of_counts (counts : quantifier.Counts real done) : done = 0 ↔ real = 0 := by
  unfold Quantifier.Counts at counts
  split at counts <;> omega

theorem openings_of_counts (config : Config) (counts : quantifier.Counts real done)
    (start : Cursor) :
    Enumerate.openings (ε := ε) (κ := κ) config done start =
      Enumerate.openings config real start := by
  -- Only the first unit has no separator.
  simp only [Enumerate.openings, zero_iff_of_counts counts]

/-! ### One more unit -/

variable (config : Config) (quantifier : Quantifier) (Unit : Cursor → List (Reading ε κ) → Prop)
  (Tail : Nat → Cursor → List (Chain ε κ) → Prop)

/-- The chains behind an opening and one of several units. -/
inductive Behind (count : Nat) (start : Cursor) (opening : Chain ε κ) :
    List (Reading ε κ) → List (Chain ε κ) → Prop where
  | nil : Behind count start opening [] []
  | still {found : Reading ε κ} {rest : List (Reading ε κ)} {chains : List (Chain ε κ)}
      (stands : found.stop.offset = start.offset) (others : Behind count start opening rest chains) :
      Behind count start opening (found :: rest) chains
  | moved {found : Reading ε κ} {rest : List (Reading ε κ)} {tails chains : List (Chain ε κ)}
      (moves : found.stop.offset ≠ start.offset) (behind : Tail (count + 1) found.stop tails)
      (others : Behind count start opening rest chains) :
      Behind count start opening (found :: rest)
        (tails.map (fun tail => ⟨tail.stop, opening.nodes ++ found.node :: tail.nodes⟩) ++ chains)

/-- The chains that begin with one more unit after `count` of them. -/
inductive Further (count : Nat) (start : Cursor) : List (Chain ε κ) → Prop where
  | full (no : quantifier.allowsMore count = false) : Further count start []
  | unopened (more : quantifier.allowsMore count = true)
      (none : Enumerate.openings (ε := ε) (κ := κ) config count start = []) : Further count start []
  | unit {opening : Chain ε κ} {others : List (Chain ε κ)} {found : List (Reading ε κ)}
      {chains : List (Chain ε κ)} (more : quantifier.allowsMore count = true)
      (opened : Enumerate.openings config count start = opening :: others)
      (units : Unit opening.stop found) (behind : Behind Tail count start opening found chains) :
      Further count start chains

/-- What has to be shown so that `Tail` holds of all tails: it may be used behind one more unit,
from wherever the repetition gets to. -/
structure TailRule (text : List Char) (kept : Known ε κ → Prop)
    (unit : Cursor → Search ε κ (Readings ε κ)) (Reach : Nat → Cursor → Prop) : Prop where
  inside : ∀ {count start}, Reach count start → start.In text
  unit : ∀ {count start} {opening : Chain ε κ}, Reach count start →
    quantifier.allowsMore count = true → opening ∈ Enumerate.openings config count start →
      Ensures kept (unit opening.stop) fun readings => Unit opening.stop readings.whole
  next : ∀ {count start} {opening : Chain ε κ} {list} {found : Reading ε κ}, Reach count start →
    quantifier.allowsMore count = true → opening ∈ Enumerate.openings config count start →
      Unit opening.stop list → found ∈ list → found.stop.offset ≠ start.offset →
        Reach (count + 1) found.stop ∧ found.stop.rest.length < start.rest.length
  tail : ∀ {count start} {chains : List (Chain ε κ)}, Reach count start →
    Further config quantifier Unit Tail count start chains →
      Tail count start (firstPerStop
        (chains ++ if quantifier.admits count then [⟨start, []⟩] else []))

variable {quantifier Unit Tail} {scope : Scope ε κ} {text : List Char} {kept : Known ε κ → Prop}
  {unit : Cursor → Search ε κ (Readings ε κ)} {Reach : Nat → Cursor → Prop}

variable (quantifier Tail Reach) in
/-- The tails of which `Tail` holds, for every real count that leads here. -/
def TailsHold (place : Cursor) (done : Nat) (chains : Chains ε κ) : Prop :=
  ∀ real, quantifier.Counts real done → Reach real place → Tail real place chains.whole

variable (quantifier Tail Reach) in
/-- An entry of what a repetition remembers holds at its place. -/
def EntryHolds (entry : (Nat × Nat) × Chains ε κ) : Prop :=
  ∀ place : Cursor, place.offset = entry.1.1 →
    TailsHold quantifier Tail Reach place entry.1.2 entry.2

variable (quantifier Tail Reach) in
/-- The tails that were found behind one of several units. -/
def TailsBehind (start : Cursor) (done : Nat) (opening : Chain ε κ) (found : Reading ε κ)
    (tails : Chains ε κ) : Prop :=
  if found.stop.offset = start.offset then tails.whole = []
  else ∃ rest, TailsHold quantifier Tail Reach found.stop (nextCount quantifier done) rest ∧
    tails = rest.after (opening.nodes ++ [found.node])

private theorem behind_of_forall₂ {count done : Nat} {start : Cursor} {opening : Chain ε κ}
    (counts : quantifier.Counts count done) (more : quantifier.allowsMore done = true)
    {found : List (Reading ε κ)} {tails : List (Chains ε κ)}
    (reaches : ∀ reading ∈ found, reading.stop.offset ≠ start.offset →
      Reach (count + 1) reading.stop)
    (related : List.Forall₂ (TailsBehind quantifier Tail Reach start done opening) found tails) :
    Behind Tail count start opening found (tails.flatMap Chains.whole) := by
  induction related with
  | nil => exact .nil
  | @cons reading tail found tails first _ ih =>
    have others := ih fun reading member => reaches reading (List.mem_cons_of_mem _ member)
    rw [List.flatMap_cons]
    unfold TailsBehind at first
    split at first
    next stands =>
      rw [first]
      exact .still stands others
    next moves =>
      obtain ⟨rest, holds, rfl⟩ := first
      have reached := reaches reading List.mem_cons_self moves
      have behind := holds (count + 1) (counts_next counts more) reached
      have shape : (rest.after (opening.nodes ++ [reading.node])).whole =
          rest.whole.map fun tail => ⟨tail.stop, opening.nodes ++ reading.node :: tail.nodes⟩ := by
        simp [Chains.after]
      rw [shape]
      exact .moved moves behind others

theorem readRepeated_tails
    (rule : TailRule scope.config quantifier Unit Tail text kept unit Reach) {steps done : Nat}
    {start : Cursor} {real : Nat} (enough : start.rest.length < steps)
    (counts : quantifier.Counts real done) (reached : Reach real start) :
    EnsuresWith kept (fun known => ∀ entry ∈ known, EntryHolds quantifier Tail Reach entry)
      (readRepeated scope unit quantifier steps done start)
      (TailsHold quantifier Tail Reach start done) := by
  induction steps generalizing done start real with
  | zero => omega
  | succ steps ih =>
    rw [readRepeated]
    refine EnsuresWith.get.bind fun known entries => ?_
    split
    -- Remembered tails hold for every real count, so also for this one.
    next chains found =>
      have entry := entries _ (mem_of_lookup found)
      exact .pure (entry start rfl)
    next =>
      extract_lets here finish
      -- All ways to end are the same: add stopping here, remember, and return.
      have finished (further : Chains ε κ)
          (holds : ∀ real, quantifier.Counts real done → Reach real start →
            Further scope.config quantifier Unit Tail real start further.whole) :
          EnsuresWith kept (fun known => ∀ entry ∈ known, EntryHolds quantifier Tail Reach entry)
            (finish further) (TailsHold quantifier Tail Reach start done) := by
        have result : TailsHold quantifier Tail Reach start done
            ⟨firstPerStop (further.whole ++ here), further.cut⟩ := by
          intro real counts reached
          have tail := rule.tail reached (holds real counts reached)
          rw [admits_of_counts counts] at tail
          simpa only [decide_eq_true_eq] using tail
        refine (EnsuresWith.modify fun known entries => ?_).bind fun _ _ => .pure result
        refine List.forall_mem_cons.mpr ⟨?_, entries⟩
        -- What is remembered is found again by the offset alone.
        intro place same real counts reached'
        obtain rfl := (rule.inside reached').eq_of_offset (rule.inside reached) same
        exact result real counts reached'
      simp only [pure_bind]
      split
      next more =>
        refine (EnsuresWith.lift (readSeparator_openings done)).bind fun opening opened => ?_
        have openings_eq {real} (counts : quantifier.Counts real done) :
            Enumerate.openings scope.config real start = opening.whole := by
          rw [opened, openings_of_counts _ counts]
        have allows {real} (counts : quantifier.Counts real done) :
            quantifier.allowsMore real = true := allowsMore_of_counts counts ▸ more
        split
        -- No separator, so no further unit.
        next none =>
          refine finished _ fun real counts _ => ?_
          rw [none]
          exact .unopened (allows counts) (openings_eq counts ▸ none)
        next first others whole =>
          have first_mem {real} (counts : quantifier.Counts real done) :
              first ∈ Enumerate.openings scope.config real start := by
            rw [openings_eq counts, whole]
            exact List.mem_cons_self
          refine (EnsuresWith.lift (rule.unit reached (allows counts) (first_mem counts))).bind
            fun units read => ?_
          refine (EnsuresWith.mapM (TailsBehind quantifier Tail Reach start done first)
            fun found member => ?each).bind fun tails related => ?behind
          case behind =>
            refine finished _ fun real counts reached => ?_
            have moved : ∀ reading ∈ units.whole, reading.stop.offset ≠ start.offset →
                Reach (real + 1) reading.stop := fun reading member moves =>
              (rule.next reached (allows counts) (first_mem counts) read member moves).1
            exact .unit (allows counts) ((openings_eq counts).trans whole) read
              (behind_of_forall₂ counts more moved related)
          -- A unit that stands still is skipped; behind any other one less text is left.
          case each =>
            split
            next stands => exact .pure (by simp only [TailsBehind, if_pos stands])
            next moves =>
              obtain ⟨reached', less⟩ :=
                rule.next reached (allows counts) (first_mem counts) read member moves
              refine (ih (by omega) (counts_next counts more) reached').bind fun rest holds => ?_
              exact .pure (by simpa only [TailsBehind, if_neg moves] using ⟨rest, holds, rfl⟩)
      next full =>
        exact finished _ fun real counts _ =>
          .full (by rw [← allowsMore_of_counts counts, Bool.not_eq_true] at *; exact full)

end Matching
end SentenceGrammar
