import SentenceGrammar.Proofs.AttemptSearch
import SentenceGrammar.Proofs.Fronts
import SentenceGrammar.Proofs.ScriptCutOffs

/-!
# Attempts at scripts

Unless two types recur in each other at one place, where the sentences at a place end does not depend
on what was read before. So the places that the search for a script visits are known beforehand, and
at each of them, where a sentence may begin, it makes all attempts at the sentences. It notes all
these attempts, and that something could follow at every other place that it visits.
-/
namespace SentenceGrammar.Matching

open Enumerate
open Text (isBlank)

variable {ε κ : Type} {registry : Registry ε κ} {config : Config} {text : List Char}
  {completing : Bool} {least : Nat}

/-- The attempts at the sentences at a place. -/
def SentenceTries (registry : Registry ε κ) (config : Config) (text : List Char) (place : Cursor)
    (attempt : Attempt ε κ) : Prop :=
  ∃ chosen ∈ registry.sentences, TriesItems registry.alternatives config
    (canonical registry config text) none chosen.pattern.items place attempt

/-- The sentences that may follow a step, as further steps. -/
def Step.further (registry : Registry ε κ) (config : Config) (text : List Char)
    (step : Step ε κ) : List (Step ε κ) :=
  if step.separated then
    (firstTypeReadings (oneOf config (canonical registry config text) registry.sentences
      step.stop)).map step.extend
  else []

theorem visits_further (step : Step ε κ) :
    (step.further registry config text).map Step.visit =
      successors (canonicalEnds registry config text) step.visit := by
  rw [Step.further, successors, Step.visit]
  split
  · simp only [canonicalEnds, List.map_map, Function.comp_def, visit_extend]
  · rfl

/-- What one more sentence behind a step comes to. -/
structure AdvanceTried (registry : Registry ε κ) (config : Config) (text : List Char)
    (completing first : Bool) (step : Step ε κ) (found : Advanced ε κ) (offset : Nat) : Prop where
  steps : found.1 = step.further registry config text
  tried : Tried completing offset
    (fun attempt => step.separated = true ∧ SentenceTries registry config text step.stop attempt)
    found.2
  noted : first = false ∨ step.separated = false → step.stop.rest ≠ [] → step.stop.offset ≤ offset

theorem AdvanceTried.mono {first : Bool} {step : Step ε κ} {found : Advanced ε κ}
    {offset later : Nat} (further : offset ≤ later)
    (tried : AdvanceTried registry config text completing first step found offset) :
    AdvanceTried registry config text completing first step found later :=
  ⟨tried.steps, tried.tried.mono further,
    fun other going => (tried.noted other going).trans further⟩

theorem advance_tries (noMutual : NoMutualLeftRecursion registry.alternatives config text)
    {levels : Nat} (enough : levelsFor registry text ≤ levels) (first : Bool) {step : Step ε κ}
    (inside : step.stop.In text) :
    Attains (Recalls registry config completing text []) least
      (advance ⟨registry, config, completing, []⟩ (readType levels) first step)
      (AdvanceTried registry config text completing first step) := by
  rw [advance]
  dsimp only
  split
  next separated =>
    refine .perhapsExpect recalls_grows fun _ offset _ noted => ?_
    refine ((readSentences_tries noMutual inside enough offset).ensuring
      (readSentences_refines noMutual completing inside enough)
      fun _ _ recalls => recalls.faithful).bind fun readings last reached both =>
        .pure fun later more => ⟨?steps, ?tried, fun other going => ?noted⟩
    case steps => rw [Step.further, if_pos separated, both.2]
    case tried =>
      refine Tried.congr ?_ fun attempt => (and_iff_right separated).symm
      refine (both.1.mono more).map fun cut leaf last => ?_
      exact Node.openLeaf?_append (Node.openLeaf?_cutOff last)
    case noted =>
      have further := other.resolve_right (by simp [separated])
      exact (noted ⟨by simp [further], going⟩).trans (reached.trans more)
  next closed =>
    have closed : step.separated = false := Bool.eq_false_iff.mpr closed
    refine .perhapsExpect recalls_grows fun _ offset _ noted => .pure fun later more =>
      ⟨?_, .nil fun attempt tries => ?_, fun _ going => (noted going).trans more⟩
    · rw [Step.further, if_neg (by simp [closed])]
    · rw [closed] at tries
      cases tries.1

/-! ### Rounds -/

/-- Where the first sentence may begin. -/
def startOf (text : List Char) : Cursor := Cursor.skipWhile isBlank ⟨0, text⟩

/-- What the search for a script visits after so many sentences. -/
def canonicalVisits (registry : Registry ε κ) (config : Config) (text : List Char) (count : Nat) :
    List Visit :=
  visitsAfter (canonicalEnds registry config text) (startOf text) count

/-- After so many sentences, another one may begin at the place and is read there. -/
def Reads (registry : Registry ε κ) (config : Config) (text : List Char) (count : Nat)
    (place : Cursor) : Prop :=
  (place, true) ∈ canonicalVisits registry config text count ∧
    (config.severalSentences = false → count = 0)

/-- After some number of sentences that is allowed, the end of the text is visited. -/
def VisitsEnd (registry : Registry ε κ) (config : Config) (text : List Char) : Prop :=
  ∃ count visit, (config.severalSentences = false → count ≤ 1) ∧
    visit ∈ canonicalVisits registry config text count ∧ visit.1.rest = []

/-- White space, or a sentence that was read where one may begin. -/
def ScriptNode (registry : Registry ε κ) (config : Config) (text : List Char) (node : Node ε κ) :
    Prop :=
  (∃ start stop, node = .covering start stop none .gap []) ∨
    ∃ count place reading, Reads registry config text count place ∧
      reading ∈ oneOf config (canonical registry config text) registry.sentences place ∧
        node = .covering place reading.stop none (.alternative reading.chosen) reading.children

/-- What the rounds from the one after `count` sentences up to the one before `total` come to. -/
structure RoundsTried (registry : Registry ε κ) (config : Config) (text : List Char)
    (completing : Bool) (count total : Nat) (before result : ScriptReadings ε κ) (offset : Nat) :
    Prop where
  tried : completing = true ∨ result.whole = none → ∃ further, result.cut = before.cut ++ further ∧
    Tried completing offset (fun attempt => ∃ later place, count ≤ later ∧ later < total ∧
      Reads registry config text later place ∧ SentenceTries registry config text place attempt)
      further
  noted : result.whole = none → ∀ later visit, count ≤ later → later < total → 0 < later →
    (config.severalSentences = false → later ≤ 1) →
      visit ∈ canonicalVisits registry config text later → visit.1.offset ≤ offset
  nodes : ∀ nodes, result.whole = some nodes →
    ∀ node ∈ nodes, ScriptNode registry config text node
  keeps : before.whole.isSome = true → result.whole.isSome = true
  atEnd : result.whole.isSome = true →
    before.whole.isSome = true ∨ VisitsEnd registry config text

theorem mem_visits {frontier : List (Step ε κ)} {count : Nat} {visit : Visit}
    (same : frontier.map Step.visit = canonicalVisits registry config text count) :
    visit ∈ canonicalVisits registry config text count ↔ ∃ step ∈ frontier, step.visit = visit := by
  rw [← same, List.mem_map]

theorem visitsAfter_of_empty {ends : Cursor → List Cursor} {start : Cursor} {count later : Nat}
    (empty : visitsAfter ends start count = []) (further : count ≤ later) :
    visitsAfter ends start later = [] := by
  induction later, further using Nat.le_induction with
  | base => exact empty
  | succ later _ ih =>
    rw [visitsAfter] at ih ⊢
    rw [after_succ, Layer.next, ih]
    rfl

theorem canonicalVisits_inside {count : Nat} {visit : Visit}
    (member : visit ∈ canonicalVisits registry config text count) : visit.1.In text :=
  (reachable_of_mem_visitsAfter (Cursor.skipWhile_skipWhile _ _) member).inside
    (fun _ inside _ => canonicalEnds_inside registry config text inside)
    (inside_skipBlank (Cursor.in_start text))

/-- No more sentences than there are places lead to a visit. -/
theorem count_of_visit {count : Nat} {visit : Visit}
    (member : visit ∈ canonicalVisits registry config text count) :
    count < Text.byteSize text + 1 :=
  count_lt_of_visit (fun _ inside _ => canonicalEnds_inside registry config text inside)
    (inside_skipBlank (Cursor.in_start text)) (Cursor.skipWhile_skipWhile _ _)
    (List.ne_nil_of_mem member)

/-- Nothing in front of the first sentence is visited. -/
theorem startOf_le {count : Nat} {visit : Visit}
    (member : visit ∈ canonicalVisits registry config text count) :
    (startOf text).offset ≤ visit.1.offset := by
  induction count generalizing visit with
  | zero =>
    obtain rfl := List.mem_singleton.mp member
    exact Nat.le_refl _
  | succ count ih =>
    obtain ⟨-, place, before, stop, ended, rfl⟩ := mem_visitsAfter_succ member
    obtain ⟨_, passes⟩ := canonicalEnds_passes ended
    exact ((ih before).trans passes.offset_le).trans (Cursor.passes_skipWhile _ _).offset_le

section

variable {levels left count total : Nat} {first : Bool} {frontier : List (Step ε κ)}
  {readings : ScriptReadings ε κ}

/-- The layer of the visits after so many sentences. -/
def canonicalLayer (registry : Registry ε κ) (config : Config) (text : List Char) (count : Nat) :
    Layer :=
  (Layer.first (startOf text)).after (canonicalEnds registry config text) count

-- A sentence that follows is read where it may begin, and white space follows it.
private theorem nodes_further {step later : Step ε κ}
    (reads : step.separated = true → Reads registry config text count step.stop)
    (nodes : ∀ node ∈ step.nodes, ScriptNode registry config text node)
    (member : later ∈ step.further registry config text) :
    ∀ node ∈ later.nodes, ScriptNode registry config text node := by
  rw [Step.further, List.mem_ite_nil_right] at member
  obtain ⟨separated, listed⟩ := member
  obtain ⟨reading, kept, rfl⟩ := List.mem_map.mp listed
  intro node member
  simp only [Step.extend, readGap, List.mem_append, List.mem_cons] at member
  rcases member with before | rfl | gap
  · exact nodes node before
  · exact .inr ⟨count, step.stop, reading, reads separated, (keepNew_sublist _ _ _).subset kept, rfl⟩
  · split at gap
    · cases gap
    · obtain rfl := List.mem_singleton.mp gap
      exact .inl ⟨_, _, rfl⟩

-- No round reads anything, as nothing is visited or no further sentence is allowed.
private theorem roundsTried_over {offset : Nat} {result : ScriptReadings ε κ}
    (initial : first = true ↔ count = 0)
    (same : frontier.map Step.visit = canonicalVisits registry config text count)
    (closing : frontier.isEmpty = true ∨ ¬(first = true ∨ config.severalSentences = true))
    (cut : result.cut = readings.cut)
    (nodes : ∀ nodes, result.whole = some nodes →
      ∀ node ∈ nodes, ScriptNode registry config text node)
    (keeps : readings.whole.isSome = true → result.whole.isSome = true)
    (atEnd : result.whole.isSome = true →
      readings.whole.isSome = true ∨ VisitsEnd registry config text)
    (noted : result.whole = none → ∀ step ∈ frontier, step.stop.offset ≤ offset) :
    RoundsTried registry config text completing count total readings result offset := by
  have last {later : Nat} {visit : Visit} (further : count ≤ later)
      (visited : visit ∈ canonicalVisits registry config text later) :
      config.severalSentences = false ∧ count ≠ 0 := by
    rcases closing with empty | closing
    · rw [List.isEmpty_iff.mp empty] at same
      have nothing : canonicalVisits registry config text later = [] :=
        visitsAfter_of_empty same.symm further
      rw [nothing] at visited
      cases visited
    · obtain ⟨later, single⟩ := not_or.mp closing
      exact ⟨Bool.eq_false_iff.mpr single, mt initial.mpr later⟩
  refine ⟨fun _ => ⟨[], by rw [cut, List.append_nil], .nil ?_⟩, ?_, nodes, keeps, atEnd⟩
  · rintro attempt ⟨later, place, further, -, reads, -⟩
    obtain ⟨single, some⟩ := last further reads.1
    exact some (Nat.le_zero.mp (reads.2 single ▸ further))
  · intro none later visit further _ _ bound visited
    obtain ⟨single, some⟩ := last further visited
    obtain rfl : later = count := by
      have := bound single
      omega
    obtain ⟨step, member, rfl⟩ := (mem_visits same).mp visited
    exact noted none step member

/-- One more sentence behind every step that was reached makes the next layer. -/
theorem canonical_next {found : List (Advanced ε κ)}
    (same : frontier.map Step.visit = canonicalVisits registry config text count)
    (related : List.Forall₂ (fun step found => found.1 = step.further registry config text)
      frontier found) :
    let next := keepNew (fun step => step.stop.offset)
      (canonicalLayer registry config text count).seen (found.flatMap Prod.fst)
    next.map Step.visit = canonicalVisits registry config text (count + 1) ∧
      next.map (fun step => step.stop.offset) ++ (canonicalLayer registry config text count).seen =
        (canonicalLayer registry config text (count + 1)).seen := by
  have visits : (keepNew (fun step => step.stop.offset)
        (canonicalLayer registry config text count).seen (found.flatMap Prod.fst)).map Step.visit =
      ((canonicalLayer registry config text count).next
        (canonicalEnds registry config text)).visits :=
    next_visits same (related.imp fun step _ steps => steps ▸ visits_further step)
  have next : canonicalLayer registry config text (count + 1) =
      (canonicalLayer registry config text count).next (canonicalEnds registry config text) :=
    after_succ _ _ _
  have offsets := congrArg (List.map fun visit : Visit => visit.1.offset) visits
  rw [List.map_map] at offsets
  refine ⟨visits.trans (congrArg Layer.visits next.symm), ?_⟩
  rw [next]
  exact congrArg (· ++ (canonicalLayer registry config text count).seen) offsets

-- The attempts of one round and those of the rounds behind it.
private theorem roundsTried_on {found : List (Advanced ε κ)} {offset : Nat}
    {whole : Option (List (Node ε κ))} {result : ScriptReadings ε κ}
    (fewer : count < total) (initial : first = true ↔ count = 0)
    (same : frontier.map Step.visit = canonicalVisits registry config text count)
    (reads : ∀ step ∈ frontier, step.separated = true → Reads registry config text count step.stop)
    (keeps : readings.whole.isSome = true → whole.isSome = true)
    (atEnd : whole.isSome = true →
      readings.whole.isSome = true ∨ VisitsEnd registry config text)
    (going : whole = none → ∀ step ∈ frontier, step.stop.rest ≠ [])
    (related : List.Forall₂ (fun step found =>
      AdvanceTried registry config text completing first step found offset) frontier found)
    (behind : RoundsTried registry config text completing (count + 1) total
      ⟨whole, readings.cut ++ found.flatMap Prod.snd⟩ result offset) :
    RoundsTried registry config text completing count total readings result offset := by
  refine ⟨fun early => ?tried, fun none => ?noted, behind.nodes, behind.keeps ∘ keeps,
    fun some => (behind.atEnd some).elim atEnd .inr⟩
  case tried =>
    obtain ⟨further, cut, tried⟩ := behind.tried early
    refine ⟨_, cut.trans (List.append_assoc ..), ?_⟩
    have here : Tried completing offset (fun attempt => ∃ step ∈ frontier,
        step.separated = true ∧ SentenceTries registry config text step.stop attempt)
        (found.flatMap Prod.snd) := .flatMap (related.imp fun _ _ advanced => advanced.tried)
    refine (here.append tried).congr fun attempt => ⟨?_, ?_⟩
    · rintro (⟨step, member, separated, tries⟩ | ⟨later, place, further, tries⟩)
      · exact ⟨count, step.stop, Nat.le_refl _, fewer, reads step member separated, tries⟩
      · exact ⟨later, place, Nat.le_of_succ_le further, tries⟩
    · rintro ⟨later, place, further, fewer, reads, tries⟩
      rcases Nat.eq_or_lt_of_le further with rfl | further
      · obtain ⟨step, member, visit⟩ := (mem_visits same).mp reads.1
        obtain ⟨rfl, separated⟩ := Prod.mk.inj visit
        exact .inl ⟨step, member, separated, tries⟩
      · exact .inr ⟨later, place, further, fewer, reads, tries⟩
  case noted =>
    intro later visit further fewer some bound visited
    rcases Nat.eq_or_lt_of_le further with rfl | further
    · obtain ⟨step, member, rfl⟩ := (mem_visits same).mp visited
      obtain ⟨_, _, tried⟩ := exists_of_forall₂ related.flip member
      refine tried.noted (.inl (Bool.eq_false_iff.mpr (mt initial.mp (Nat.ne_of_gt some))))
        (going ?_ step member)
      by_contra known
      have kept := behind.keeps (Option.isSome_iff_ne_none.mpr known)
      simp [none] at kept
    · exact behind.noted none later visit further fewer some bound visited

theorem rounds_tries (noMutual : NoMutualLeftRecursion registry.alternatives config text)
    (enough : levelsFor registry text ≤ levels) (rounds : left + count = total)
    (initial : first = true ↔ count = 0) (bound : config.severalSentences = false → count ≤ 1)
    (same : frontier.map Step.visit = canonicalVisits registry config text count)
    (nodes : ∀ step ∈ frontier, ∀ node ∈ step.nodes, ScriptNode registry config text node)
    (before : ∀ nodes, readings.whole = some nodes →
      ∀ node ∈ nodes, ScriptNode registry config text node) :
    Attains (Recalls registry config completing text []) least
      (Matching.rounds ⟨registry, config, completing, []⟩ (readType levels) left first
        (canonicalLayer registry config text count).seen frontier readings)
      (RoundsTried registry config text completing count total readings) := by
  induction left generalizing count first frontier readings least with
  | zero =>
    refine .pure fun offset _ =>
      ⟨fun _ => ⟨[], (List.append_nil _).symm, .nil ?_⟩, ?_, before, id, .inl⟩
    · rintro attempt ⟨later, place, further, fewer, -⟩
      omega
    · intro _ later visit further fewer
      omega
  | succ left ih =>
    unfold Matching.rounds
    extract_lets whole finish
    have some_iff : whole.isSome = true ↔
        readings.whole.isSome = true ∨ ∃ step ∈ frontier, step.stop.rest = [] := whole_isSome_iff
    have keeps : readings.whole.isSome = true → whole.isSome = true :=
      fun earlier => some_iff.mpr (.inl earlier)
    have atEnd : whole.isSome = true →
        readings.whole.isSome = true ∨ VisitsEnd registry config text := by
      intro some
      rcases some_iff.mp some with earlier | ⟨step, member, ended⟩
      · exact .inl earlier
      · exact .inr ⟨count, step.visit, bound, (mem_visits same).mpr ⟨step, member, rfl⟩, ended⟩
    have going : whole = none → ∀ step ∈ frontier, step.stop.rest ≠ [] := by
      intro none step member ended
      have some := some_iff.mpr (.inr ⟨step, member, ended⟩)
      rw [none] at some
      cases some
    have found : ∀ nodes, whole = some nodes →
        ∀ node ∈ nodes, ScriptNode registry config text node := by
      intro all known
      rcases whole_cases known with earlier | ⟨step, member, -, rfl⟩
      · exact before all earlier
      · exact nodes step member
    clear_value whole
    split
    next closing =>
      obtain ⟨some, parsing⟩ := closing
      refine .pure fun offset _ => ⟨fun early => ?_, fun none => ?_, found, keeps, atEnd⟩
      · rcases early with wanted | none
        · exact absurd wanted parsing
        · simp only at none
          simp [none] at some
      · simp only at none
        simp [none] at some
    next =>
      split
      next closing =>
        split
        next =>
          refine (Attains.forM recalls_grows).bind fun _ offset _ noted => .pure fun later more => ?_
          exact roundsTried_over initial same closing rfl found keeps atEnd fun _ step member =>
            (noted step member).trans more
        next some =>
          refine .pure fun offset _ => roundsTried_over initial same closing rfl found keeps atEnd
            fun none => ?_
          simp only at none
          simp [none] at some
      next on =>
        have allowed := Decidable.not_not.mp (not_or.mp on).2
        have initially (single : config.severalSentences = false) : count = 0 :=
          initial.mp (allowed.resolve_right (by simp [single]))
        have reads step (member : step ∈ frontier) (separated : step.separated = true) :
            Reads registry config text count step.stop := by
          exact ⟨(mem_visits same).mpr ⟨step, member, by rw [Step.visit, separated]⟩, initially⟩
        refine (Attains.mapM (AdvanceTried registry config text completing first)
          (fun _ _ _ _ => .mono) fun step member offset _ => advance_tries noMutual enough first
            (canonicalVisits_inside ((mem_visits same).mpr ⟨step, member, rfl⟩))).bind
              fun advanced offset _ related => ?_
        obtain ⟨visits, seen⟩ := canonical_next same (related.imp fun _ _ tried => tried.steps)
        dsimp only
        rw [seen]
        refine ((ih (by omega) (by simp) (fun single => by simp [initially single]) visits
          (fun step member => ?nodes) found).further).weaken
          fun result later both => ?all
        case nodes =>
          obtain ⟨earlier, member, after, tried, taken⟩ := exists_taken related member
          rw [tried.steps] at taken
          exact nodes_further (reads earlier member) (nodes earlier member) taken
        case all =>
          exact roundsTried_on (by omega) initial same reads keeps atEnd going
            (related.imp fun _ _ tried => tried.mono both.1) both.2

end

/-- The search for a script makes all attempts at all places where a sentence may begin. -/
theorem scriptRun_tries (noMutual : NoMutualLeftRecursion registry.alternatives config text)
    (completing : Bool) :
    RoundsTried registry config text completing 0 (Text.byteSize text + 2) {}
      (scriptRun registry config completing text).1
      (scriptRun registry config completing text).2.failure.place.offset := by
  have nothing : Recalls registry config completing text [] 0 [] :=
    ⟨faithful_nil registry config text, by simp⟩
  have gap : ∀ step ∈ [firstStep ε κ text], ∀ node ∈ step.nodes,
      ScriptNode registry config text node := by
    intro step member node listed
    obtain rfl := List.mem_singleton.mp member
    simp only [firstStep, readGap] at listed
    split at listed
    · cases listed
    · obtain rfl := List.mem_singleton.mp listed
      exact .inl ⟨_, _, rfl⟩
  have tries : Attains (Recalls registry config completing text []) 0
      (rounds ⟨registry, config, completing, []⟩ (readType (levelsFor registry text))
        (Text.byteSize text + 2) true (canonicalLayer registry config text 0).seen
        [firstStep ε κ text] {})
      (RoundsTried registry config text completing 0 (Text.byteSize text + 2) {}) :=
    rounds_tries noMutual (Nat.le_refl _) (Nat.add_zero _) (by simp) (by simp) rfl gap (by simp)
  exact (tries (.start text) (fun _ => rfl) (Nat.zero_le _) nothing).2.2.2

end SentenceGrammar.Matching
