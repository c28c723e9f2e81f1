import SentenceGrammar.Proofs.Replay
import SentenceGrammar.Proofs.ScriptSoundness
import SentenceGrammar.Proofs.SentenceRows

/-!
# Accepting scripts

Which texts are accepted, in terms of where sentences end behind each place of the text. Within one
pass, the sentences at a place are the same whenever they are read, so they can be told from what
is remembered at its end.
-/
namespace SentenceGrammar.Matching

open Text (isBlank)

variable {ε κ α β : Type} {scope : Scope ε κ} {named : TypeReader ε κ}

/-! ### Running to the end -/

theorem run_perhapsExpect (scope : Scope ε κ) (place : Cursor) (expected : Expected)
    (condition : Prop) [Decidable condition] (next : Unit → Search ε κ β)
    (progress : Progress ε κ) :
    ∃ noted : Progress ε κ, noted.known = progress.known ∧
      (if condition then expect scope place expected >>= next else next ()).run progress =
        (next ()).run noted := by
  split
  · exact ⟨((expect scope place expected).run progress).2, rfl, rfl⟩
  · exact ⟨progress, rfl, rfl⟩

theorem run_mapM {late : Known ε κ} {search : α → Search ε κ β} (post : α → β → Prop)
    (list : List α)
    (grows : ∀ a ∈ list, ∀ before, Ensures (Extends before) (search a) fun _ => True)
    (each : ∀ a ∈ list, ∀ progress, Extends ((search a).run progress).2.known late →
      post a ((search a).run progress).1) (progress : Progress ε κ)
    (remembered : Extends ((list.mapM search).run progress).2.known late) :
    List.Forall₂ post list ((list.mapM search).run progress).1 := by
  induction list generalizing progress with
  | nil => exact .nil
  | cons a rest ih =>
    have growsRest b (member : b ∈ rest) := grows b (List.mem_cons_of_mem _ member)
    have eachRest b (member : b ∈ rest) := each b (List.mem_cons_of_mem _ member)
    let middle := ((search a).run progress).2
    rw [List.mapM_cons] at remembered ⊢
    -- What the first run remembered is still remembered after the others.
    have others := ih growsRest eachRest middle remembered
    have further := (Ensures.mapM (fun _ _ => True) fun b member =>
      growsRest b member middle.known) middle (.refl _)
    have first := each a List.mem_cons_self progress (further.2.trans remembered)
    exact .cons first others

/-! ### Rounds are layers -/

/-- Where the sentences at a place end that are read when so much is remembered. -/
def sentenceEnds (scope : Scope ε κ) (named : TypeReader ε κ) (late : Progress ε κ)
    (place : Cursor) : List Cursor :=
  ((readAlternatives scope named scope.registry.sentences place).run late).1.whole.map
    TypeReading.stop

def Step.visit (step : Step ε κ) : Visit := (step.stop, step.separated)

theorem visit_extend (step : Step ε κ) (found : TypeReading ε κ) :
    (step.extend found).visit = (found.stop.skipWhile isBlank,
      decide ((found.stop.skipWhile isBlank).offset ≠ found.stop.offset)) := by
  simp only [Step.extend, Step.visit, readGap]
  split <;> simp_all

theorem advance_uses (first : Bool) (step : Step ε κ) :
    Uses (named scope) (advance scope named first step) := by
  rw [advance]
  dsimp only
  split
  · exact .perhapsExpect fun _ => .bind (readAlternatives_uses _ _) fun _ => .pure _
  · exact .perhapsExpect fun _ => .pure _

theorem advance_visits
    (replays : ∀ place, Replays (readAlternatives scope named scope.registry.sentences place))
    {first : Bool} {step : Step ε κ} {progress late : Progress ε κ}
    (remembered : Extends ((advance scope named first step).run progress).2.known late.known) :
    ((advance scope named first step).run progress).1.1.map Step.visit =
      successors (sentenceEnds scope named late) step.visit := by
  revert remembered
  unfold advance
  extract_lets atEnd goOn stay
  intro remembered
  by_cases separated : step.separated = true
  · rw [if_pos separated] at remembered ⊢
    -- Read now or at the end of the pass, the sentences are the same.
    obtain ⟨noted, -, same⟩ := run_perhapsExpect scope step.stop .endOfInput
      (¬first = true ∧ ¬atEnd) goOn progress
    rw [same] at remembered ⊢
    have again := ((replays step.stop noted).2 late remembered).1
    rw [successors, Step.visit, if_pos separated, sentenceEnds, again, List.map_map]
    exact (List.map_map ..).trans (List.map_congr_left fun found _ => visit_extend step found)
  · rw [if_neg separated]
    obtain ⟨noted, -, same⟩ := run_perhapsExpect scope step.stop .sentenceBreak (¬atEnd) stay
      progress
    rw [same, successors, Step.visit, if_neg separated]
    rfl

theorem rounds_uses (left : Nat) (first : Bool) (seen : List Nat) (frontier : List (Step ε κ))
    (readings : ScriptReadings ε κ) :
    Uses (named scope) (rounds scope named left first seen frontier readings) := by
  induction left generalizing first seen frontier readings with
  | zero => exact .pure _
  | succ left ih =>
    unfold rounds
    extract_lets whole finish
    split
    · exact .pure _
    · split
      · split
        · exact .bind (.forM _ fun _ _ => .expect _ _ _) fun _ => .pure _
        · exact .pure _
      · exact .bind (.mapM _ fun step _ => advance_uses first step) fun found => ih _ _ _ _

theorem next_visits {ends : Cursor → List Cursor} {layer : Layer}
    {frontier : List (Step ε κ)} (same : frontier.map Step.visit = layer.visits)
    {found : List (List (Step ε κ) × List (List (Node ε κ)))}
    (related : List.Forall₂ (fun step found =>
      found.1.map Step.visit = successors ends step.visit) frontier found) :
    (keepNew (fun step => step.stop.offset) layer.seen (found.flatMap Prod.fst)).map Step.visit =
      (layer.next ends).visits := by
  have visits : (found.flatMap Prod.fst).map Step.visit =
      layer.visits.flatMap (successors ends) := by
    rw [List.map_flatMap, ← same, List.flatMap_map]
    exact flatMap_of_forall₂ related fun _ _ extended => extended
  rw [Layer.next, ← visits, keepNew_map]
  rfl

section

variable {left : Nat} {first : Bool} {seen : List Nat} {frontier : List (Step ε κ)}
  {readings : ScriptReadings ε κ} {progress late : Progress ε κ}

/-- A round takes the first step that has reached the end of the text, -/
theorem round_takes (parsing : scope.completing = false) (nothing : readings.whole = none)
    (atEnd : ∃ step ∈ frontier, step.stop.rest = []) :
    ∃ step ∈ frontier, step.stop.rest = [] ∧
      ((rounds scope named (left + 1) first seen frontier readings).run progress).1.whole =
        some step.nodes := by
  unfold rounds
  extract_lets whole finish
  obtain ⟨step, taken⟩ : ∃ step, (frontier.find? fun step => step.stop.rest.isEmpty) = some step :=
    Option.isSome_iff_exists.mp (by simpa only [List.find?_isSome, List.isEmpty_iff] using atEnd)
  have found : whole = some step.nodes := by
    simp only [whole, nothing, taken, Option.map_some]
  refine ⟨step, List.mem_of_find?_eq_some taken, ?_, ?_⟩
  · simpa only [List.isEmpty_iff] using List.find?_some taken
  · rw [if_pos ⟨Option.isSome_of_eq_some found, by simp [parsing]⟩]
    exact found

/-- and so finds a script. -/
theorem round_found (parsing : scope.completing = false) (nothing : readings.whole = none)
    (atEnd : ∃ step ∈ frontier, step.stop.rest = []) :
    ((rounds scope named (left + 1) first seen frontier readings).run progress).1.whole.isSome =
      true := by
  obtain ⟨step, -, -, found⟩ := round_takes parsing nothing atEnd
  exact Option.isSome_of_eq_some found

variable (nothing : readings.whole = none) (nowhere : ∀ step ∈ frontier, step.stop.rest ≠ [])

include nothing nowhere

private theorem whole_none :
    (match readings.whole with
      | some nodes => some nodes
      | none => (frontier.find? fun step => step.stop.rest.isEmpty).map Step.nodes) = none := by
  simp only [nothing, Option.map_eq_none_iff, List.find?_eq_none, List.isEmpty_iff]
  exact nowhere

/-- Otherwise it finds none if there is nothing more to read, -/
theorem round_over
    (ended : frontier = [] ∨ (first = false ∧ scope.config.severalSentences = false)) :
    ((rounds scope named (left + 1) first seen frontier readings).run progress).1.whole = none := by
  unfold rounds
  extract_lets whole finish
  have none : whole = none := whole_none nothing nowhere
  have ended : frontier.isEmpty = true ∨
      ¬(first = true ∨ scope.config.severalSentences = true) := by
    simpa [List.isEmpty_iff] using ended
  rw [if_neg (by simp [none]), if_pos ended]
  split <;> exact none

/-- and else it goes on with one more sentence. -/
theorem round_next (some : frontier ≠ [])
    (further : first = true ∨ scope.config.severalSentences = true)
    {found : List (List (Step ε κ) × List (List (Node ε κ)))} {middle : Progress ε κ}
    (read : (frontier.mapM (advance scope named first)).run progress = (found, middle)) :
    (rounds scope named (left + 1) first seen frontier readings).run progress =
      (rounds scope named left false
        ((keepNew (fun step => step.stop.offset) seen (found.flatMap Prod.fst)).map
          (fun step => step.stop.offset) ++ seen)
        (keepNew (fun step => step.stop.offset) seen (found.flatMap Prod.fst))
        ⟨none, readings.cut ++ found.flatMap Prod.snd⟩).run middle := by
  conv_lhs => unfold rounds
  extract_lets whole finish
  have none : whole = none := whole_none nothing nowhere
  clear_value whole
  subst none
  have going : ¬(frontier.isEmpty = true ∨
      ¬(first = true ∨ scope.config.severalSentences = true)) := by
    rw [List.isEmpty_iff]
    exact not_or.mpr ⟨some, not_not_intro further⟩
  rw [if_neg (by simp), if_neg going, run_bind, read]

end

-- One step of all that was reached makes the next layer, as long as all of it is remembered.
private theorem advance_layer (outside : ∀ name place, Replays (named scope name place))
    {first : Bool} {layer : Layer} {frontier : List (Step ε κ)}
    {progress middle late : Progress ε κ}
    {found : List (List (Step ε κ) × List (List (Node ε κ)))}
    (same : frontier.map Step.visit = layer.visits)
    (read : (frontier.mapM (advance scope named first)).run progress = (found, middle))
    (remembered : Extends middle.known late.known) :
    (keepNew (fun step => step.stop.offset) layer.seen (found.flatMap Prod.fst)).map Step.visit =
        (layer.next (sentenceEnds scope named late)).visits ∧
      (keepNew (fun step => step.stop.offset) layer.seen (found.flatMap Prod.fst)).map
          (fun step => step.stop.offset) ++ layer.seen =
        (layer.next (sentenceEnds scope named late)).seen := by
  have replays place : Replays (readAlternatives scope named scope.registry.sentences place) :=
    (readAlternatives_uses _ place).replays outside
  have related := run_mapM (fun step (found : List (Step ε κ) × List (List (Node ε κ))) =>
      found.1.map Step.visit = successors (sentenceEnds scope named late) step.visit) frontier
    (fun step _ before => (advance_uses first step).ensures fun name place =>
      (outside name place).ensures before)
    (fun step _ _ => advance_visits replays) progress (read ▸ remembered)
  rw [read] at related
  have visits := next_visits same related
  have offsets := congrArg (List.map fun visit : Visit => visit.1.offset) visits
  rw [List.map_map] at offsets
  exact ⟨visits, congrArg (· ++ layer.seen) offsets⟩

/-- In how many of the rounds that are left the end of the text may be reached. -/
def roundLimit (config : Config) (first : Bool) : Nat → Nat
  | 0 => 0
  | left + 1 =>
    (if first = true ∨ config.severalSentences = true then roundLimit config false left else 0) + 1

theorem roundLimit_several {config : Config} (several : config.severalSentences = true)
    (first : Bool) (left : Nat) : roundLimit config first left = left := by
  induction left generalizing first with
  | zero => rfl
  | succ left ih => rw [roundLimit, if_pos (.inr several), ih]

theorem roundLimit_single {config : Config} (single : config.severalSentences = false)
    (left : Nat) : roundLimit config true (left + 2) = 2 := by
  simp [roundLimit, single]

/-- The search for scripts finds one just if a layer of visits gets to the end of the text. -/
theorem rounds_finds (parsing : scope.completing = false)
    (outside : ∀ name place, Replays (named scope name place)) {left : Nat} {first : Bool}
    {layer : Layer} {frontier : List (Step ε κ)} {readings : ScriptReadings ε κ}
    {progress late : Progress ε κ} (nothing : readings.whole = none)
    (same : frontier.map Step.visit = layer.visits)
    (remembered : Extends
      ((rounds scope named left first layer.seen frontier readings).run progress).2.known
      late.known) :
    ((rounds scope named left first layer.seen frontier readings).run progress).1.whole.isSome =
        true ↔
      layer.Finishes (sentenceEnds scope named late) (roundLimit scope.config first left) := by
  induction left generalizing first layer frontier readings progress with
  | zero =>
    have none : ((rounds scope named 0 first layer.seen frontier readings).run
        progress).1.whole = none := nothing
    simp [none, roundLimit, Layer.Finishes]
  | succ left ih =>
    have ends : (∃ visit ∈ layer.visits, visit.1.rest = []) ↔
        ∃ step ∈ frontier, step.stop.rest = [] := by
      simp [← same, Step.visit]
    rw [roundLimit, finishes_succ, ends]
    -- The cases are those of the round: found, nothing left, one more sentence, no more allowed.
    by_cases here : ∃ step ∈ frontier, step.stop.rest = []
    · exact iff_of_true (round_found parsing nothing here) (.inl here)
    rw [or_iff_right here]
    have nowhere : ∀ step ∈ frontier, step.stop.rest ≠ [] :=
      fun step member atEnd => here ⟨step, member, atEnd⟩
    by_cases empty : frontier = []
    · rw [round_over nothing nowhere (.inl empty)]
      have none : (layer.next (sentenceEnds scope named late)).visits = [] := by
        simp [Layer.next, ← same, empty, keepNew]
      exact iff_of_false (by simp) (not_finishes_of_empty none)
    by_cases further : first = true ∨ scope.config.severalSentences = true
    · obtain ⟨found, middle, read⟩ : ∃ found middle,
          (frontier.mapM (advance scope named first)).run progress = (found, middle) :=
        ⟨_, _, rfl⟩
      rw [round_next nothing nowhere empty further read] at remembered ⊢
      have later : Extends middle.known late.known :=
        ((rounds_uses _ _ _ _ _).ensures (fun name place =>
          (outside name place).ensures middle.known) middle (.refl _)).2.trans remembered
      obtain ⟨visits, seen⟩ := advance_layer outside same read later
      rw [seen] at remembered ⊢
      rw [if_pos further]
      exact ih rfl visits remembered
    · have single : first = false ∧ scope.config.severalSentences = false := by
        simpa using further
      rw [round_over nothing nowhere (.inr single), if_neg further]
      simp [Layer.Finishes]

/-! ### Accepting a text -/

/-- The search through a text for a script. -/
def parsing (registry : Registry ε κ) (config : Config) : Scope ε κ :=
  { registry, config, completing := false }

/-- What is known when a text was searched through. -/
def passEnd (registry : Registry ε κ) (config : Config) (text : String) : Progress ε κ :=
  ((readScript (parsing registry config) (Cursor.ofText text)).run
    { failure := { place := Cursor.ofText text } }).2

/-- Where the sentences at a place of a text end, in the pass through the text. -/
def passEnds (registry : Registry ε κ) (config : Config) (text : String) :
    Cursor → List Cursor :=
  sentenceEnds (parsing registry config) (readType (levelsFor registry text.toList))
    (passEnd registry config text)

/-- Where the first sentence begins, behind leading white space. -/
def firstPlace (text : String) : Cursor := (Cursor.ofText text).skipWhile isBlank

theorem firstPlace_settled (text : String) :
    (firstPlace text).skipWhile isBlank = firstPlace text :=
  Cursor.skipWhile_skipWhile _ _

def Accepts (registry : Registry ε κ) (config : Config) (text : String) : Prop :=
  ∃ root, parse registry config text = .ok root

instance (registry : Registry ε κ) (config : Config) (text : String) :
    Decidable (Accepts registry config text) :=
  match parsed : parse registry config text with
  | .ok root => .isTrue ⟨root, parsed⟩
  | .error _ => .isFalse fun ⟨_, accepted⟩ => by simp [parsed] at accepted

variable {registry : Registry ε κ} {config : Config} {text : String}

theorem parsing_replays (registry : Registry ε κ) (config : Config) (levels : Nat) (name : String)
    (place : Cursor) : Replays (readType levels (parsing registry config) name place) :=
  readType_replays rfl levels name place

/-- Whenever the sentences at a place are read in the pass, these are the places where they end. -/
theorem passEnds_of_read (place : Cursor) {progress : Progress ε κ}
    (remembered : Extends ((readAlternatives (parsing registry config)
      (readType (levelsFor registry text.toList)) registry.sentences place).run progress).2.known
      (passEnd registry config text).known) :
    ((readAlternatives (parsing registry config) (readType (levelsFor registry text.toList))
      registry.sentences place).run progress).1.whole.map TypeReading.stop =
        passEnds registry config text place := by
  have replays := (readAlternatives_uses registry.sentences place).replays
    (parsing_replays registry config (levelsFor registry text.toList))
  have again := ((replays progress).2 (passEnd registry config text) remembered).1
  exact congrArg (fun readings => readings.whole.map TypeReading.stop) again.symm

theorem passEnds_inside : EndsInside (passEnds registry config text) text.toList := by
  intro place inside stop member
  have sound := readType_derives text.toList (levelsFor registry text.toList)
    (parsing registry config)
  have known : Derived (parsing registry config) text.toList
      (passEnd registry config text).known :=
    (readScript_derives sound { failure := { place := Cursor.ofText text } }
      (by simp [Derived])).2
  have derived := (readAlternatives_derives sound registry.sentences inside
    (passEnd registry config text) known).1
  obtain ⟨reading, found, rfl⟩ := List.mem_map.mp member
  obtain ⟨_, passes⟩ := (derived reading found).2.passes
  exact inside.passes passes

theorem accepts_iff_whole : Accepts registry config text ↔
    ((readScript (parsing registry config) (Cursor.ofText text)).run
      { failure := { place := Cursor.ofText text } }).1.whole.isSome = true := by
  rw [Accepts, parse, searchText]
  dsimp only
  split
  next nodes found =>
    have some : ((readScript (parsing registry config) (Cursor.ofText text)).run
      { failure := { place := Cursor.ofText text } }).1.whole = Option.some nodes := found
    simp [some]
  next found =>
    have none : ((readScript (parsing registry config) (Cursor.ofText text)).run
      { failure := { place := Cursor.ofText text } }).1.whole = none := found
    simp [none]

/-- A text is accepted just if visits from place to place get to its end. -/
theorem accepts_iff_visit : Accepts registry config text ↔
    ∃ count, (config.severalSentences = false → count ≤ 1) ∧
      ∃ visit ∈ visitsAfter (passEnds registry config text) (firstPlace text) count,
        visit.1.rest = [] := by
  have inside : (firstPlace text).In text.toList := inside_skipBlank (Cursor.in_start _)
  rw [accepts_iff_whole]
  -- The search begins with the step behind leading white space, and has rounds enough.
  let begin : Step ε κ := ⟨firstPlace text, (readGap (Cursor.ofText text)).2, true⟩
  have found : ((rounds (parsing registry config) (readType (levelsFor registry text.toList))
      (Text.byteSize text.toList + 2) true (Layer.first (firstPlace text)).seen [begin] {}).run
        { failure := { place := Cursor.ofText text } }).1.whole.isSome = true ↔
      (Layer.first (firstPlace text)).Finishes (passEnds registry config text)
        (roundLimit config true (Text.byteSize text.toList + 2)) :=
    rounds_finds rfl (parsing_replays registry config _) rfl rfl
      (.refl (passEnd registry config text).known)
  refine Iff.trans found ?_
  constructor
  · rintro ⟨count, less, found⟩
    refine ⟨count, fun single => ?_, found⟩
    rw [roundLimit_single single] at less
    exact Nat.le_of_lt_succ less
  · rintro ⟨count, bound, visit, member, atEnd⟩
    refine ⟨count, ?_, visit, member, atEnd⟩
    cases several : config.severalSentences with
    | true =>
      have fewer := count_lt_of_visit passEnds_inside inside (firstPlace_settled text)
        (List.ne_nil_of_mem member)
      rw [roundLimit_several several]
      exact Nat.lt_succ_of_lt fewer
    | false =>
      rw [roundLimit_single several]
      exact Nat.lt_succ_of_le (bound several)

/-- With several sentences allowed, a text is accepted just if it is a row of sentences each of
which begins at a place that was opened: that the search, going by fewer sentences first and
then by the order of the readings, first visited behind white space. So an accepted text always is
a row of sentences. The converse holds where no place can be reached both directly behind a sentence
and behind white space, but not in general. -/
theorem accepts_iff_opened_row (several : config.severalSentences = true) :
    (Accepts registry config text ↔
      ∃ stops, SentenceRow (passEnds registry config text)
        (Opened (passEnds registry config text) (firstPlace text)) (firstPlace text) stops) ∧
    (Accepts registry config text →
      ∃ stops, SentenceRow (passEnds registry config text) (fun _ => True) (firstPlace text)
        stops) ∧
    (Unambiguous (passEnds registry config text) (firstPlace text) →
      (Accepts registry config text ↔
        ∃ stops, SentenceRow (passEnds registry config text) (fun _ => True) (firstPlace text)
          stops)) := by
  have inside : (firstPlace text).In text.toList := inside_skipBlank (Cursor.in_start _)
  have settled := firstPlace_settled text
  have opened : Accepts registry config text ↔
      ∃ stops, SentenceRow (passEnds registry config text)
        (Opened (passEnds registry config text) (firstPlace text)) (firstPlace text) stops := by
    rw [← visited_atEnd_iff passEnds_inside inside settled, accepts_iff_visit]
    simp [several]
  have sound : Accepts registry config text →
      ∃ stops, SentenceRow (passEnds registry config text) (fun _ => True) (firstPlace text)
        stops := by
    intro accepted
    obtain ⟨stops, row⟩ := opened.mp accepted
    exact ⟨stops, row.imp fun _ _ => trivial⟩
  refine ⟨opened, sound, fun unambiguous => ⟨sound, ?_⟩⟩
  rintro ⟨stops, row⟩
  exact opened.mpr ⟨stops, row_opened passEnds_inside inside settled unambiguous .start row⟩

/-- A sentence of one letter, which may or may not take the blank behind it. -/
def letters : Registry Empty Empty :=
  .ofItems [] [[.literal "a " ⟨0, 0⟩], [.literal "a" ⟨0, 0⟩], [.literal "b" ⟨0, 0⟩]]

theorem accepts_iff_opened_row_letters :
    Accepts letters {} "b a" ∧
      ∃ stops,
        SentenceRow (passEnds letters {} "b a") (fun _ => True) (firstPlace "b a") stops := by
  have accepted : Accepts letters {} "b a" := by decide +kernel
  exact ⟨accepted, (accepts_iff_opened_row rfl).2.1 accepted⟩

/-- The blank may be white space between the sentences, but it is read as part of the first one. -/
theorem row_refused_letters :
    (∃ stops, SentenceRow (passEnds letters {} "a b") (fun _ => True) (firstPlace "a b") stops) ∧
      ¬Accepts letters {} "a b" := by
  refine ⟨⟨[⟨1, [' ', 'b']⟩, ⟨3, []⟩], ?_⟩, by decide +kernel⟩
  have first : (⟨1, [' ', 'b']⟩ : Cursor) ∈ passEnds letters {} "a b" (firstPlace "a b") := by
    decide +kernel
  have second : (⟨3, []⟩ : Cursor) ∈ passEnds letters {} "a b" ⟨2, ['b']⟩ := by decide +kernel
  exact .further first (by decide) trivial (.last second (by decide))

end SentenceGrammar.Matching
