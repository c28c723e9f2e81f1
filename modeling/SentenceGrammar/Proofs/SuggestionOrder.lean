import SentenceGrammar.Proofs.DecidingAnswers
import SentenceGrammar.Proofs.ScriptAcceptance

/-!
# The order of suggestions

The trees that break off in a sentence stand in the order in which sentences are tried: place by
place, and for each place in the order of the registry. A suggestion is kept where its completion
first comes up. So what is suggested for an earlier sentence comes before whatever is suggested for
a later one only.

## Main result

`autocomplete_gathers`: a veto rules out all suggestions, and without one, which of them there are
and in which order.
-/
namespace SentenceGrammar

variable {ε κ σ : Type}

namespace Matching

variable {scope : Scope ε κ} {named : TypeReader ε κ} {progress late : Progress ε κ}

/-! ### What is cut off at one place -/

/-- What the end of the text cuts off of an alternative, when so much is remembered. -/
def cutOffs (scope : Scope ε κ) (named : TypeReader ε κ) (late : Progress ε κ) (place : Cursor)
    (chosen : Alternative ε κ) : List (List (Node ε κ)) :=
  ((readItems scope named chosen.pattern.items [⟨place, []⟩]).run late).1.cut

/-- Of several alternatives, what is cut off stands in their order. -/
theorem readAlternatives_cut (outside : ∀ name place, Replays (named scope name place))
    (alternatives : List (Alternative ε κ)) (place : Cursor)
    (remembered : Extends
      ((readAlternatives scope named alternatives place).run progress).2.known late.known) :
    ((readAlternatives scope named alternatives place).run progress).1.cut =
      alternatives.flatMap fun chosen =>
        (cutOffs scope named late place chosen).map fun nodes => (chosen, nodes) := by
  rw [readAlternatives, run_bind] at remembered ⊢
  -- Read now or at the end of the pass, what is cut off of each alternative is the same.
  have related := run_mapM (fun chosen (found : Alternative ε κ × Chains ε κ) =>
      found.1 = chosen ∧ found.2.cut = cutOffs scope named late place chosen) alternatives
    (fun chosen _ before => (Uses.bind (readItems_uses chosen.pattern.items _) fun _ =>
      .pure _).ensures fun name place => (outside name place).ensures before)
    (fun chosen _ progress remembered => ?_) progress remembered
  · apply flatMap_of_forall₂ related
    rintro chosen ⟨_, chains⟩ ⟨rfl, same⟩
    exact congrArg (List.map _) same
  · have replays := (readItems_uses chosen.pattern.items [⟨place, []⟩]).replays outside
    have again := ((replays progress).2 late remembered).1
    exact ⟨rfl, congrArg Chains.cut again.symm⟩

/-- What is cut off of the sentences behind a step. -/
def Step.cutOffs (scope : Scope ε κ) (named : TypeReader ε κ) (late : Progress ε κ)
    (step : Step ε κ) (sentences : List (Alternative ε κ)) : List (List (Node ε κ)) :=
  if step.separated then
    sentences.flatMap fun chosen =>
      (Matching.cutOffs scope named late step.stop chosen).map fun children =>
        step.nodes ++ [.cutOff step.stop none (.alternative chosen) children]
  else []

theorem advance_cut (outside : ∀ name place, Replays (named scope name place)) {first : Bool}
    {step : Step ε κ}
    (remembered : Extends ((advance scope named first step).run progress).2.known late.known) :
    ((advance scope named first step).run progress).1.2 =
      step.cutOffs scope named late scope.registry.sentences := by
  revert remembered
  unfold advance
  extract_lets atEnd goOn stay
  intro remembered
  by_cases separated : step.separated = true
  · rw [if_pos separated] at remembered ⊢
    obtain ⟨noted, -, same⟩ := run_perhapsExpect scope step.stop .endOfInput
      (¬first = true ∧ ¬atEnd) goOn progress
    rw [same] at remembered ⊢
    have cut := readAlternatives_cut outside scope.registry.sentences step.stop remembered
    rw [Step.cutOffs, if_pos separated]
    refine (congrArg (List.map fun found : Alternative ε κ × List (Node ε κ) =>
      step.nodes ++ [.cutOff step.stop none (.alternative found.1) found.2]) cut).trans ?_
    simp [List.map_flatMap, Function.comp_def]
  · rw [if_neg separated]
    obtain ⟨noted, -, same⟩ := run_perhapsExpect scope step.stop .sentenceBreak (¬atEnd) stay
      progress
    rw [same, Step.cutOffs, if_neg separated]
    rfl

/-! ### What is cut off in a whole text -/

/-- The steps are at different places of the text. -/
def Apart (text : List Char) (steps : List (Step ε κ)) : Prop :=
  (∀ step ∈ steps, step.stop.In text) ∧
    steps.Pairwise fun one other => one.stop.offset ≠ other.stop.offset

/-- What is cut off behind several steps. -/
def cutBehind (scope : Scope ε κ) (named : TypeReader ε κ) (late : Progress ε κ)
    (steps : List (Step ε κ)) : List (List (Node ε κ)) :=
  steps.flatMap fun step => step.cutOffs scope named late scope.registry.sentences

theorem Apart.append {text : List Char} {front back : List (Step ε κ)} (apart : Apart text front)
    (further : Apart text back)
    (different : ∀ one ∈ front, ∀ other ∈ back, one.stop.offset ≠ other.stop.offset) :
    Apart text (front ++ back) :=
  ⟨List.forall_mem_append.mpr ⟨apart.1, further.1⟩,
    List.pairwise_append.mpr ⟨apart.2, further.2, different⟩⟩

theorem cutBehind_append (front back : List (Step ε κ)) :
    cutBehind scope named late (front ++ back) =
      cutBehind scope named late front ++ cutBehind scope named late back :=
  List.flatMap_append

section

variable {text : List Char} {kept : Known ε κ → Prop} {first : Bool} {seen : List Nat}
  {frontier : List (Step ε κ)} (outside : ∀ name place, Replays (named scope name place))
  (sound : NamedSound scope.registry.alternatives text kept scope named)
  (held : kept progress.known) (reached : ∀ step ∈ frontier, Reached scope text first step)

include outside sound held reached

/-- In one round, it is what is cut off behind the steps of the frontier. -/
theorem round_cut (seen : List Nat)
    (further : first = true ∨ scope.config.severalSentences = true)
    {found : List (List (Step ε κ) × List (List (Node ε κ)))} {middle : Progress ε κ}
    (read : (frontier.mapM (advance scope named first)).run progress = (found, middle))
    (remembered : Extends middle.known late.known) :
    found.flatMap Prod.snd = cutBehind scope named late frontier ∧ kept middle.known ∧
      ∀ step ∈ keepNew (fun step => step.stop.offset) seen (found.flatMap Prod.fst),
        Reached scope text false step := by
  have cut := run_mapM (fun (step : Step ε κ)
        (found : List (Step ε κ) × List (List (Node ε κ))) =>
      found.2 = step.cutOffs scope named late scope.registry.sentences) frontier
    (fun step _ before => (advance_uses first step).ensures fun name place =>
      (outside name place).ensures before)
    (fun step _ _ => advance_cut outside) progress (read ▸ remembered)
  have reaches := Ensures.mapM (fun (_ : Step ε κ)
        (found : List (Step ε κ) × List (List (Node ε κ))) =>
      ∀ step ∈ found.1, Reached scope text false step)
    (fun step member => advance_reaches sound (reached step member) further) progress held
  rw [read] at cut reaches
  obtain ⟨after, held'⟩ := reaches
  refine ⟨flatMap_of_forall₂ cut fun _ _ same => same, held', ?_⟩
  intro step member
  obtain ⟨_, _, _, reaches, taken⟩ := exists_taken after member
  exact reaches step taken

/-- In all rounds together, it is what is cut off behind steps to different places. -/
theorem rounds_cut {left : Nat} {readings : ScriptReadings ε κ}
    (distinct : frontier.Pairwise fun one other => one.stop.offset ≠ other.stop.offset)
    (known : ∀ step ∈ frontier, step.stop.offset ∈ seen)
    (remembered : Extends
      ((rounds scope named left first seen frontier readings).run progress).2.known late.known) :
    ∃ steps, ((rounds scope named left first seen frontier readings).run progress).1.cut =
        readings.cut ++ cutBehind scope named late steps ∧
      Apart text steps ∧ ∀ step ∈ steps, step ∈ frontier ∨ step.stop.offset ∉ seen := by
  induction left generalizing first seen frontier readings progress with
  | zero => exact ⟨[], (List.append_nil _).symm, ⟨by simp, .nil⟩, by simp⟩
  | succ left ih =>
    -- Where no further sentence is read, nothing more is cut off.
    have ended {result : ScriptReadings ε κ} (same : result.cut = readings.cut) :
        ∃ steps, result.cut = readings.cut ++ cutBehind scope named late steps ∧
          Apart text steps ∧ ∀ step ∈ steps, step ∈ frontier ∨ step.stop.offset ∉ seen :=
      ⟨[], by simp [same, cutBehind], ⟨by simp, .nil⟩, by simp⟩
    unfold rounds at remembered ⊢
    extract_lets at remembered ⊢
    split
    · exact ended rfl
    next more =>
      rw [if_neg more] at remembered
      split
      · split <;> exact ended rfl
      next going =>
        rw [if_neg going] at remembered
        have further := Decidable.not_not.mp (not_or.mp going).2
        obtain ⟨found, middle, read⟩ : ∃ found middle,
            (frontier.mapM (advance scope named first)).run progress = (found, middle) :=
          ⟨_, _, rfl⟩
        rw [run_bind, read] at remembered ⊢
        have later : Extends middle.known late.known :=
          ((rounds_uses _ _ _ _ _).ensures (fun name place =>
            (outside name place).ensures middle.known) middle (.refl _)).2.trans remembered
        obtain ⟨cut, held', reached'⟩ :=
          round_cut outside sound held reached seen further read later
        have listed : ∀ step ∈ keepNew (fun step => step.stop.offset) seen (found.flatMap Prod.fst),
            step.stop.offset ∈ (keepNew (fun step => step.stop.offset) seen
              (found.flatMap Prod.fst)).map (fun step => step.stop.offset) ++ seen :=
          fun step member => List.mem_append_left _ (List.mem_map_of_mem member)
        obtain ⟨steps, cutLater, apart, new⟩ := ih held' reached' (pairwise_keepNew _ _ _) listed
          remembered
        -- The steps of the later rounds are not where any step has been before.
        have unseen : ∀ step ∈ steps, step.stop.offset ∉ seen := by
          intro step member
          rcases new step member with next | never
          · have fresh := not_seen_of_mem_keepNew next
            exact fresh
          · exact fun before => never (List.mem_append_right _ before)
        have here : Apart text frontier := ⟨fun step now => (reached step now).inside, distinct⟩
        refine ⟨frontier ++ steps, ?_, ?_, ?_⟩
        · rw [cutBehind_append, ← cut, ← List.append_assoc]
          exact cutLater
        · apply here.append apart
          intro one now other later same
          exact unseen other later (same ▸ known one now)
        · intro step member
          exact (List.mem_append.mp member).imp_right (unseen step)

end

/-- The search through a text for completions. -/
def completing (registry : Registry ε κ) (config : Config) : Scope ε κ :=
  { registry, config, completing := true }

/-- All that is cut off in a text, behind steps to different places. -/
theorem scriptRun_cut (registry : Registry ε κ) (config : Config) (text : List Char) :
    ∃ steps, (scriptRun registry config true text).1.cut =
        cutBehind (completing registry config) (readType (levelsFor registry text))
          (scriptRun registry config true text).2 steps ∧
      Apart text steps := by
  let begin : Step ε κ := ⟨(readGap (ε := ε) (κ := κ) ⟨0, text⟩).1, (readGap ⟨0, text⟩).2, true⟩
  have reached : ∀ step ∈ [begin], Reached (completing registry config) text true step := by
    intro step member
    obtain rfl := List.mem_singleton.mp member
    exact firstStep_reached
  have nothing : Derived (completing registry config) text (Progress.start text).known := by
    simp [Derived, Progress.start]
  have known : ∀ step ∈ [begin], step.stop.offset ∈ [begin.stop.offset] := by simp
  obtain ⟨steps, cut, apart, -⟩ := rounds_cut (readType_replays rfl _)
    (readType_derives text (levelsFor registry text) (completing registry config)) nothing reached
    (List.pairwise_singleton _ _) known (.refl (scriptRun registry config true text).2.known)
  exact ⟨steps, cut, apart⟩

/-! ### Sentences of one place -/

/-- The nodes of a script break off in the sentence of the given number, which begins at the given
place. -/
def BreaksIn (registry : Registry ε κ) (place : Cursor) (number : Nat) (nodes : List (Node ε κ)) :
    Prop :=
  ∃ chosen front children, registry.sentences[number]? = some chosen ∧
    nodes = front ++ [.cutOff place none (.alternative chosen) children]

/-- Places of a text at which the same node begins are the same. -/
theorem place_of_cutOff {text : List Char} {one other : Cursor} (inside : one.In text)
    (inside' : other.In text) {front front' children children' : List (Node ε κ)}
    {chosen chosen' : Alternative ε κ}
    (same : front ++ [.cutOff one none (.alternative chosen) children] =
      front' ++ [.cutOff other none (.alternative chosen') children']) :
    one = other ∧ chosen = chosen' := by
  have last := (List.append_inj' same rfl).2
  simp only [Node.cutOff, List.cons.injEq, Node.mk.injEq, NodeKind.alternative.injEq,
    String.ofList_inj, and_true] at last
  obtain ⟨alternative, -, -, rest, -⟩ := last
  refine ⟨inside.eq_of_offset inside' ?_, alternative⟩
  have size := inside.offset_add
  have size' := inside'.offset_add
  rw [rest] at size
  omega

theorem mem_cutOffs {step : Step ε κ} {sentences : List (Alternative ε κ)}
    {nodes : List (Node ε κ)} : nodes ∈ step.cutOffs scope named late sentences ↔
      step.separated = true ∧ ∃ chosen ∈ sentences,
        ∃ children ∈ cutOffs scope named late step.stop chosen,
          nodes = step.nodes ++ [.cutOff step.stop none (.alternative chosen) children] := by
  rw [Step.cutOffs]
  split
  next separated => simp [separated, eq_comm]
  next joined => simp [joined]

theorem cutOffs_append (step : Step ε κ) (front back : List (Alternative ε κ)) :
    step.cutOffs scope named late (front ++ back) =
      step.cutOffs scope named late front ++ step.cutOffs scope named late back := by
  simp only [Step.cutOffs]
  split
  · exact List.flatMap_append
  · rfl

theorem mem_take_iff {sentences : List (Alternative ε κ)} {first : Nat} {chosen : Alternative ε κ} :
    chosen ∈ sentences.take (first + 1) ↔
      ∃ number ≤ first, sentences[number]? = some chosen := by
  simp only [List.mem_iff_getElem?, List.getElem?_take, Nat.lt_succ_iff,
    Option.ite_none_right_eq_some]

section

variable {text : List Char} {place : Cursor} (inside : place.In text) {number : Nat}
  {nodes : List (Node ε κ)} (broken : BreaksIn scope.registry place number nodes)

include inside broken

/-- What breaks off behind a step does so at its place, in one of the sentences tried there. -/
theorem breaksIn_behind {step : Step ε κ} (inside' : step.stop.In text)
    {sentences : List (Alternative ε κ)}
    (member : nodes ∈ step.cutOffs scope named late sentences) :
    step.stop = place ∧ ∃ chosen ∈ sentences, scope.registry.sentences[number]? = some chosen ∧
      ∃ children ∈ cutOffs scope named late step.stop chosen,
        nodes = step.nodes ++ [.cutOff step.stop none (.alternative chosen) children] := by
  obtain ⟨-, chosen, listed, children, found, rfl⟩ := mem_cutOffs.mp member
  obtain ⟨other, front, children', registered, same⟩ := broken
  obtain ⟨there, rfl⟩ := place_of_cutOff inside' inside same
  exact ⟨there, chosen, listed, registered, children, found, rfl⟩

/-- Behind steps to other places, nothing breaks off at the place. -/
theorem not_behind {steps : List (Step ε κ)} (insideAll : ∀ step ∈ steps, step.stop.In text)
    (elsewhere : ∀ step ∈ steps, step.stop ≠ place) :
    nodes ∉ cutBehind scope named late steps := by
  intro member
  obtain ⟨step, listed, behind⟩ := List.mem_flatMap.mp member
  exact elsewhere step listed (breaksIn_behind inside broken (insideAll step listed) behind).1

end

/-- The trees in a front part are all that break off at a place in a sentence of some number, and
among them is none that breaks off at that place in later sentences only. -/
def Leads (registry : Registry ε κ) (place : Cursor) (first : Nat)
    (front back : List (List (Node ε κ))) : Prop :=
  (∀ nodes ∈ back, BreaksIn registry place first nodes → nodes ∈ front) ∧
    ∀ nodes ∈ front, ∀ number, BreaksIn registry place number nodes →
      ∃ earlier ≤ first, BreaksIn registry place earlier nodes

/-- Behind steps to different places, such a front part ends with the sentences up to the number
behind the step to the place. -/
theorem exists_leading {text : List Char} {steps : List (Step ε κ)} (apart : Apart text steps)
    {place : Cursor} (inside : place.In text) (first : Nat) :
    ∃ front back, cutBehind scope named late steps = front ++ back ∧
      Leads scope.registry place first front back := by
  obtain ⟨insideAll, distinct⟩ := apart
  by_cases visited : ∃ step ∈ steps, step.stop = place
  · obtain ⟨step, member, rfl⟩ := visited
    obtain ⟨before, after, rfl⟩ := List.append_of_mem member
    -- No other step is at the place.
    obtain ⟨-, distinct', apart⟩ := List.pairwise_append.mp distinct
    have elsewhere : ∀ other ∈ before, other.stop ≠ step.stop := fun other listed same =>
      apart other listed step List.mem_cons_self (congrArg Cursor.offset same)
    have elsewhere' : ∀ other ∈ after, other.stop ≠ step.stop := fun other listed same =>
      List.rel_of_pairwise_cons distinct' listed (congrArg Cursor.offset same.symm)
    have insideBefore : ∀ other ∈ before, other.stop.In text :=
      fun other listed => insideAll other (List.mem_append_left _ listed)
    have insideAfter : ∀ other ∈ after, other.stop.In text :=
      fun other listed => insideAll other (List.mem_append_right _ (List.mem_cons_of_mem _ listed))
    let upTo := scope.registry.sentences.take (first + 1)
    let beyond := scope.registry.sentences.drop (first + 1)
    refine ⟨cutBehind scope named late before ++ step.cutOffs scope named late upTo,
      step.cutOffs scope named late beyond ++ cutBehind scope named late after, ?_, ?_, ?_⟩
    · have sentences : scope.registry.sentences = upTo ++ beyond :=
        (List.take_append_drop _ _).symm
      have single : cutBehind scope named late [step] =
          step.cutOffs scope named late upTo ++ step.cutOffs scope named late beyond := by
        rw [← cutOffs_append, ← sentences]
        exact List.append_nil _
      rw [← List.singleton_append, cutBehind_append, cutBehind_append, single]
      simp only [List.append_assoc]
    · intro nodes listed broken
      rcases List.mem_append.mp listed with here | later
      -- The sentence has the number, so it was tried among the first ones as well.
      · obtain ⟨-, chosen, -, registered, found⟩ := breaksIn_behind inside broken inside here
        have early : chosen ∈ upTo := mem_take_iff.mpr ⟨first, le_rfl, registered⟩
        exact List.mem_append_right _
          (mem_cutOffs.mpr ⟨(mem_cutOffs.mp here).1, chosen, early, found⟩)
      · exact absurd later (not_behind inside broken insideAfter elsewhere')
    · intro nodes listed number broken
      rcases List.mem_append.mp listed with earlier | here
      · exact absurd earlier (not_behind inside broken insideBefore elsewhere)
      · obtain ⟨-, chosen, early, -, children, -, rfl⟩ := breaksIn_behind inside broken inside here
        obtain ⟨earlier, bound, registered⟩ := mem_take_iff.mp early
        exact ⟨earlier, bound, chosen, step.nodes, children, registered, rfl⟩
  · have elsewhere : ∀ step ∈ steps, step.stop ≠ place := fun step member same =>
      visited ⟨step, member, same⟩
    refine ⟨[], _, rfl, fun nodes listed broken => ?_, by simp⟩
    exact absurd listed (not_behind inside broken insideAll elsewhere)

theorem exists_front (registry : Registry ε κ) (config : Config) {text : List Char}
    {place : Cursor} (inside : place.In text) (first : Nat) :
    ∃ front back, (scriptRun registry config true text).1.cut = front ++ back ∧
      Leads registry place first front back := by
  obtain ⟨steps, cut, apart⟩ := scriptRun_cut registry config text
  rw [cut]
  exact exists_leading apart inside first

end Matching

namespace Completing

/-! ### The order of what is kept -/

/-- The completions of suggestions. -/
def completions (suggestions : List Suggestion) : List String :=
  suggestions.map Suggestion.completion

theorem mem_completions {suggestions : List Suggestion} {text : String} :
    text ∈ completions suggestions ↔
      ∃ suggestion ∈ suggestions, suggestion.completion = text := by
  simp [completions]

/-- New suggestions come behind those that are known, with new completions only. -/
theorem addNew_spec (known suggestions : List Suggestion) :
    ∃ new, addNew known suggestions = known ++ new ∧ new.Sublist suggestions ∧
      ((completions known).Nodup → (completions (addNew known suggestions)).Nodup) := by
  induction suggestions generalizing known with
  | nil => exact ⟨[], (List.append_nil _).symm, .slnil, id⟩
  | cons first rest ih =>
    rw [addNew, List.foldl_cons, ← addNew]
    split
    next old =>
      obtain ⟨new, added, among, distinct⟩ := ih known
      exact ⟨new, added, among.cons first, distinct⟩
    next fresh =>
      obtain ⟨new, added, among, distinct⟩ := ih (known ++ [first])
      refine ⟨first :: new, by simpa using added, among.cons_cons first, fun before => distinct ?_⟩
      have other : ∀ earlier ∈ known, earlier.completion ≠ first.completion := by
        simpa using fresh
      rw [completions, List.map_append, List.nodup_append']
      simpa [completions] using ⟨before, other⟩

theorem addNew_nodup (suggestions : List Suggestion) :
    (completions (addNew [] suggestions)).Nodup := by
  obtain ⟨_, -, -, distinct⟩ := addNew_spec [] suggestions
  exact distinct .nil

/-- A suggestion of every completion is kept. -/
theorem mem_completions_addNew {suggestions : List Suggestion} {text : String} :
    text ∈ completions (addNew [] suggestions) ↔ text ∈ completions suggestions := by
  rw [mem_completions, mem_completions]
  constructor
  · rintro ⟨suggestion, kept, rfl⟩
    have first := (mem_addNew.mp kept).resolve_left List.not_mem_nil
    exact ⟨suggestion, first.mem, rfl⟩
  · rintro ⟨suggestion, member, rfl⟩
    rcases @exists_firstOf [] _ _ member with ⟨_, none, -⟩ | ⟨first, among, same⟩
    · cases none
    · exact ⟨first, mem_addNew.mpr (.inr among), same⟩

/-- A suggestion whose completion comes up earlier than that of another one stands before it. -/
theorem addNew_ordered {front back : List Suggestion} {one other : Suggestion}
    (kept : one ∈ addNew [] (front ++ back)) (kept' : other ∈ addNew [] (front ++ back))
    (early : one.completion ∈ completions front) (late : other.completion ∉ completions front) :
    [one, other].Sublist (addNew [] (front ++ back)) := by
  have distinct := addNew_nodup (front ++ back)
  obtain ⟨new, added, -, -⟩ := addNew_spec (addNew [] front) back
  rw [addNew_append, added] at kept kept' distinct ⊢
  -- What is kept of the front has the completion of the first one, so it is the first one.
  obtain ⟨first, before, same⟩ := mem_completions.mp (mem_completions_addNew.mpr early)
  obtain rfl : first = one :=
    List.inj_on_of_nodup_map distinct (List.mem_append_left _ before) kept same
  have after : other ∈ new := by
    refine (List.mem_append.mp kept').resolve_left fun before' => late ?_
    exact mem_completions_addNew.mp (mem_completions.mpr ⟨other, before', rfl⟩)
  exact (List.singleton_sublist.mpr before).append (List.singleton_sublist.mpr after)

/-- What is suggested for trees that offer something each. -/
structure Gathers (registry : Registry ε κ) (text : List Char) (roots : List (Node ε κ))
    (offered : Node ε κ → List Suggestion) (suggested : List Suggestion) : Prop where
  /-- No completion is repeated. -/
  distinct : (completions suggested).Nodup
  /-- Nothing else is suggested than what some tree offers, in the order of the trees. -/
  sublist : suggested.Sublist (roots.flatMap offered)
  /-- Whatever is offered comes with its completion. -/
  complete : ∀ root ∈ roots, ∀ suggestion ∈ offered root,
    suggestion.completion ∈ completions suggested
  /-- Of two sentences that were tried at the same place, what comes with the earlier one stands
  before whatever comes with the later one only. -/
  ordered : ∀ place : Cursor, place.In text → ∀ first second, first < second →
    ∀ one ∈ suggested, ∀ other ∈ suggested,
      (∃ root ∈ roots, Matching.BreaksIn registry place first root.children ∧
        one.completion ∈ completions (offered root)) →
      (∀ root ∈ roots, other.completion ∈ completions (offered root) →
        Matching.BreaksIn registry place second root.children ∧
          ∀ number, Matching.BreaksIn registry place number root.children → number = second) →
      [one, other].Sublist suggested

theorem completions_flatMap {roots : List (Node ε κ)} {offered : Node ε κ → List Suggestion}
    {text : String} : text ∈ completions (roots.flatMap offered) ↔
      ∃ root ∈ roots, text ∈ completions (offered root) := by
  simp only [mem_completions, List.mem_flatMap]
  grind

/-- The trees of a text, of whose offers the first of each completion is kept. -/
theorem gathers (registry : Registry ε κ) (config : Config) (text : List Char) (start : Cursor)
    (offered : Node ε κ → List Suggestion) :
    let roots := (Matching.scriptRun registry config true text).1.cut.map fun nodes =>
      Node.cutOff start none .script nodes
    Gathers registry text roots offered (addNew [] (roots.flatMap offered)) := by
  intro roots
  obtain ⟨new, added, among, -⟩ := addNew_spec [] (roots.flatMap offered)
  rw [List.nil_append] at added
  refine ⟨addNew_nodup _, added ▸ among, ?_, ?_⟩
  · intro root member suggestion listed
    apply mem_completions_addNew.mpr
    exact completions_flatMap.mpr ⟨root, member, mem_completions.mpr ⟨suggestion, listed, rfl⟩⟩
  · intro place inside first second less one kept other kept' ⟨root, member, breaks, shown⟩ only
    obtain ⟨front, back, cut, leading, earliest⟩ :=
      Matching.exists_front registry config inside first
    have parts : roots.flatMap offered =
        (front.map fun nodes => Node.cutOff start none .script nodes).flatMap offered ++
          (back.map fun nodes => Node.cutOff start none .script nodes).flatMap offered := by
      simp only [roots, cut, List.map_append, List.flatMap_append]
    obtain ⟨nodes, broken, rfl⟩ := List.mem_map.mp member
    rw [cut] at broken
    rw [parts] at kept kept' ⊢
    apply addNew_ordered kept kept'
    · have early : nodes ∈ front :=
        (List.mem_append.mp broken).elim id fun later => leading nodes later breaks
      exact completions_flatMap.mpr ⟨_, List.mem_map_of_mem early, shown⟩
    · intro early
      obtain ⟨root', member', shown'⟩ := completions_flatMap.mp early
      obtain ⟨nodes', listed', rfl⟩ := List.mem_map.mp member'
      -- The later sentence alone offers this, but an earlier one breaks off in the same nodes.
      have before : Node.cutOff start none .script nodes' ∈ roots := by
        apply List.mem_map_of_mem
        rw [cut]
        exact List.mem_append_left _ listed'
      obtain ⟨breaks', unique⟩ := only _ before shown'
      obtain ⟨earlier, bound, breaksEarlier⟩ := earliest nodes' listed' second breaks'
      have same := unique earlier breaksEarlier
      omega

end Completing

namespace Parser

open Completing (answering verdict offers Gathers)

variable {registry : Registry ε κ} {config : Config} {surroundings : σ} {text : String}
  {cursor : Nat}

/-- What completers without effects suggest for a text. It fails only where there are no trees. If
some tree is decided by a veto, then nothing is suggested, wherever that tree stands and whatever
the others offer. If none is, all that the trees offer is suggested once for each completion, and
what comes with one sentence stands before whatever comes with a later one only. -/
theorem autocomplete_gathers (program : ε → Node ε κ → Program σ)
    (answer : κ → Node ε κ → Bool → Completion) (registry : Registry ε κ) (config : Config)
    (surroundings : σ) (text : String) (cursor : Nat) :
    let decided := verdict (answer · · false) registry config
    let suggested := outcome (autocomplete ⟨program, answering answer⟩ text cursor) registry config
      surroundings
    match outcome (parseUnfinished text cursor) registry config surroundings with
    | .error error => suggested = .error error
    | .ok roots =>
      ((∃ root ∈ roots, decided root = .veto) → suggested = .ok []) ∧
        ((∀ root ∈ roots, decided root ≠ .veto) → ∃ suggestions, suggested = .ok suggestions ∧
          Gathers registry (textBefore text cursor).toList roots
            (fun root => offers config (decided root)) suggestions) := by
  intro decided suggested
  have settled : suggested =
      (outcome (parseUnfinished text cursor) registry config surroundings).map fun roots =>
        (Completing.settle config [] (roots.map decided)).toList := by
    simp only [suggested]
    rw [autocomplete, outcome_map, outcome_suggestions]
    simp only [Completing.collect_settles, Completing.decisions_answering]
    cases outcome (parseUnfinished text cursor) registry config surroundings <;> rfl
  cases found : outcome (parseUnfinished text cursor) registry config surroundings with
  | error => rw [settled, found, Except.map]
  | ok roots =>
    rw [settled, found, Except.map, Completing.settle]
    constructor
    · rintro ⟨root, member, veto⟩
      rw [if_pos (List.mem_map.mpr ⟨root, member, veto⟩), Suggestions.toList]
    · intro allowed
      have none : .veto ∉ roots.map decided := by simpa using allowed
      refine ⟨_, rfl, ?_⟩
      rw [if_neg none, Suggestions.toList, List.flatMap_map]
      rw [outcome_parseUnfinished, Matching.unfinished_eq] at found
      split at found
      · cases found
      · obtain rfl := Except.ok.inj found
        exact Completing.gathers registry config _ _ _

/-- Two sentences that begin alike, each with a completer. -/
def commands (first second : Completion) : Registry Empty Completion where
  sentences := [⟨none, ⟨"", [.literal "close" ⟨0, 0⟩]⟩, none, some first, false⟩,
    ⟨none, ⟨"", [.literal "clear" ⟨0, 0⟩]⟩, none, some second, false⟩]

example : outcome (autocomplete ⟨nofun, answering fun completer _ _ => completer⟩ "cl" 2)
    (commands .defer (.suggest [.literal "clean" "cl", .literal "close" ""])) {} () =
      .ok [.literal "close" "cl", .literal "clean" "cl"] := by
  decide +kernel

example : outcome (autocomplete ⟨nofun, answering fun completer _ _ => completer⟩ "cl" 2)
    (commands .defer .veto) {} () = .ok [] := by
  decide +kernel

end Parser
end SentenceGrammar
