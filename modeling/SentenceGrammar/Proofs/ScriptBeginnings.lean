import SentenceGrammar.Proofs.Beginnings
import SentenceGrammar.Proofs.ScriptAcceptance
import SentenceGrammar.Proofs.Termination

/-!
# Scripts and their beginnings

The search for a script through a text and the one for completions through a beginning of it take the
same course if the latter finds neither a script nor anything that is cut off.
-/
namespace SentenceGrammar.Matching

open Text (isBlank)

variable {ε κ : Type} {scope : Scope ε κ} {named : TypeReader ε κ}

/-! ### What rounds keep -/

section

variable {left : Nat} {first : Bool} {seen : List Nat} {frontier : List (Step ε κ)}
  {readings : ScriptReadings ε κ} {progress : Progress ε κ}

theorem rounds_keep_whole (found : readings.whole.isSome = true) :
    ((rounds scope named left first seen frontier readings).run progress).1.whole.isSome = true := by
  induction left generalizing first seen frontier readings progress with
  | zero => exact found
  | succ left ih =>
    obtain ⟨nodes, known⟩ := Option.isSome_iff_exists.mp found
    unfold rounds
    simp only [known]
    split
    · rfl
    · split
      · rfl
      · exact ih rfl

/-- A round has a script if it had one before or one of its steps has got to the end. -/
theorem whole_isSome_iff {whole : Option (List (Node ε κ))} :
    (match whole with
      | some nodes => some nodes
      | none => (frontier.find? fun step : Step ε κ => step.stop.rest.isEmpty).map
          Step.nodes).isSome = true ↔
      whole.isSome = true ∨ ∃ step ∈ frontier, step.stop.rest = [] := by
  split
  · simp
  · simp [List.isEmpty_iff]

theorem round_finds (atEnd : ∃ step ∈ frontier, step.stop.rest = []) :
    ((rounds scope named (left + 1) first seen frontier readings).run progress).1.whole.isSome =
      true := by
  unfold rounds
  extract_lets whole finish
  have found : whole.isSome = true := whole_isSome_iff.mpr (.inr atEnd)
  split
  · exact found
  · split
    · split <;> exact found
    · exact rounds_keep_whole found

theorem rounds_keep_cut : readings.cut <+:
    ((rounds scope named left first seen frontier readings).run progress).1.cut := by
  induction left generalizing first seen frontier readings progress with
  | zero => exact List.prefix_rfl
  | succ left ih =>
    unfold rounds
    extract_lets whole finish
    split
    · exact List.prefix_rfl
    · split
      · split <;> exact List.prefix_rfl
      · rw [run_bind]
        refine List.IsPrefix.trans ?_ ih
        exact List.prefix_append _ _

end

/-! ### Steps -/

theorem forall₂_imp_mem {α β : Type} {related implied : α → β → Prop} {list : List α}
    {list' : List β} (all : List.Forall₂ related list list')
    (implies : ∀ a, ∀ b ∈ list', related a b → implied a b) : List.Forall₂ implied list list' := by
  induction all with
  | nil => exact .nil
  | cons first _ ih =>
    exact .cons (implies _ _ List.mem_cons_self first)
      (ih fun a b member => implies a b (List.mem_cons_of_mem _ member))

variable {pair : Beginning ε κ}

/-- The steps get to the same places in both texts, and sentences may begin behind the same ones. -/
def StepsAlike (pair : Beginning ε κ) (steps steps' : List (Step ε κ)) : Prop :=
  List.Forall₂ (fun step step' => step.stop = step'.stop.continued pair.more ∧
    step.separated = step'.separated) steps steps'

theorem StepsAlike.offsets {steps steps' : List (Step ε κ)} (alike : StepsAlike pair steps steps') :
    steps.map (fun step => step.stop.offset) = steps'.map fun step => step.stop.offset := by
  induction alike with
  | nil => rfl
  | cons first _ ih => rw [List.map_cons, List.map_cons, ih, first.1, Cursor.continued_offset]

/-- What one more sentence leads to: steps, and what is cut off. -/
abbrev Advanced (ε κ : Type) := List (Step ε κ) × List (List (Node ε κ))

/-- Nothing is cut off, and there is more of the beginning behind every step. -/
def Onward (found : Advanced ε κ) : Prop :=
  found.2 = [] ∧ ∀ step ∈ found.1, step.stop.rest ≠ []

theorem readGap_continued {start : Cursor}
    (onward : pair.more = [] ∨ (readGap (ε := ε) (κ := κ) start).1.rest ≠ []) :
    (readGap (ε := ε) (κ := κ) (start.continued pair.more)).1 =
        (readGap (ε := ε) (κ := κ) start).1.continued pair.more ∧
      (readGap (ε := ε) (κ := κ) (start.continued pair.more)).2.isEmpty =
        (readGap (ε := ε) (κ := κ) start).2.isEmpty := by
  have skipped : (start.continued pair.more).skipWhile isBlank =
      (start.skipWhile isBlank).continued pair.more := by
    rcases onward with whole | some
    · simp [whole]
    · exact Cursor.skipWhile_continued some
  simp only [readGap, skipped, Cursor.continued_offset]
  exact ⟨trivial, by split <;> rfl⟩

theorem advance_mirrors (mirrors : NamedMirrors pair [] named) (first : Bool)
    {step step' : Step ε κ} (same : step.stop = step'.stop.continued pair.more)
    (separated : step.separated = step'.separated) (inside : step'.stop.In pair.front)
    (onward : pair.more = [] ∨ step'.stop.rest ≠ []) :
    Mirrors pair Onward (advance (pair.long []) named first step)
      (advance (pair.short []) named first step')
      fun found found' => pair.more = [] ∨ Onward found' → StepsAlike pair found.1 found'.1 := by
  have atEnd : step.stop.rest = [] ↔ step'.stop.rest = [] := by
    rw [same, Cursor.continued_rest, List.append_eq_nil_iff]
    exact ⟨And.left, fun ended => ⟨ended, onward.resolve_right (not_not_intro ended)⟩⟩
  rw [advance, advance, separated]
  dsimp only
  split
  · refine .perhapsExpect (by rw [atEnd]) same fun _ _ => ?_
    rw [same]
    refine (readAlternatives_mirrors mirrors pair.registry.sentences inside).bind
      (fun _ _ silent => List.map_eq_nil_iff.mp silent.1) fun readings readings' alike =>
        .pure fun silent => ?_
    rw [StepsAlike, List.forall₂_map_left_iff, List.forall₂_map_right_iff]
    refine forall₂_imp_mem alike fun found found' member same => ?_
    have onward : pair.more = [] ∨ (readGap (ε := ε) (κ := κ) found'.stop).1.rest ≠ [] :=
      silent.imp_right fun onward => onward.2 _ (List.mem_map.mpr ⟨found', member, rfl⟩)
    obtain ⟨stop, empty⟩ := readGap_continued onward
    simp only [Step.extend, same]
    exact ⟨stop, by rw [empty]⟩
  · exact .perhapsExpect (by rw [atEnd]) same fun _ _ => .pure fun _ => .nil

theorem forM_mirrors {steps steps' : List (Step ε κ)} (alike : StepsAlike pair steps steps')
    (expected : Expected) :
    Mirrors pair (fun _ => True)
      (steps.forM fun step => expect (pair.long []) step.stop expected)
      (steps'.forM fun step => expect (pair.short []) step.stop expected) fun _ _ => True := by
  induction alike with
  | nil => exact .pure trivial
  | cons first _ ih =>
    exact (Mirrors.expect first.1 expected).bind (fun _ _ _ => trivial) fun _ _ _ => ih

/-! ### Rounds -/

/-- The end of the beginning was not seen, unless a step has just got there. -/
def EndUnseen (front : List Char) (seen : List Nat) (frontier : List (Step ε κ)) : Prop :=
  Text.byteSize front ∈ seen → ∃ step ∈ frontier, step.stop.rest = []

section

variable {left : Nat} {first : Bool} {seen : List Nat} {frontier frontier' : List (Step ε κ)}
  {readings readings' : ScriptReadings ε κ} {progress progress' : Progress ε κ}

theorem Reached.inside {text : List Char} {step : Step ε κ} (reached : Reached scope text first step) :
    step.stop.In text := by
  obtain ⟨_, row, -⟩ := reached
  obtain ⟨_, passes⟩ := row.passes
  exact (Cursor.in_start text).passes passes

/-- A round without a script that nothing can follow. -/
theorem round_ends (nothing : readings.whole = none)
    (nowhere : ∀ step ∈ frontier, step.stop.rest ≠ [])
    (closing : frontier.isEmpty = true ∨ ¬(first = true ∨ scope.config.severalSentences = true)) :
    (rounds scope named (left + 1) first seen frontier readings).run progress =
      (⟨none, readings.cut⟩,
        ((frontier.forM fun step => expect scope step.stop .endOfInput).run progress).2) := by
  unfold rounds
  extract_lets whole finish
  have none : whole = none := by
    simp only [whole, nothing, Option.map_eq_none_iff, List.find?_eq_none, List.isEmpty_iff]
    exact nowhere
  clear_value whole
  subst none
  rw [if_neg (by simp), if_pos closing]
  rfl

/-- If no script is found and nothing is cut off, then nothing was cut off before and no step has got
to the end. -/
theorem quiet_rounds (positive : 0 < left)
    (whole : ((rounds scope named left first seen frontier readings).run progress).1.whole = none)
    (cut : ((rounds scope named left first seen frontier readings).run progress).1.cut = []) :
    readings.cut = [] ∧ ∀ step ∈ frontier, step.stop.rest ≠ [] := by
  have kept : readings.cut <+:
      ((rounds scope named left first seen frontier readings).run progress).1.cut := rounds_keep_cut
  rw [cut] at kept
  refine ⟨List.prefix_nil.mp kept, fun step member atEnd => ?_⟩
  obtain ⟨left, rfl⟩ := Nat.exists_eq_succ_of_ne_zero (Nat.ne_of_gt positive)
  have found : ((rounds scope named (left + 1) first seen frontier readings).run
      progress).1.whole.isSome = true := round_finds ⟨step, member, atEnd⟩
  rw [whole] at found
  cases found

-- A step that is not kept stops where an earlier one stopped, and that was not the end.
private theorem onward_of_kept {text : List Char}
    {found : List (Advanced ε κ)} (inside : ∀ step ∈ found.flatMap Prod.fst, step.stop.In text)
    (unseen : Text.byteSize text ∉ seen) (cut : found.flatMap Prod.snd = [])
    (kept : ∀ step ∈ keepNew (fun step => step.stop.offset) seen (found.flatMap Prod.fst),
      step.stop.rest ≠ []) : ∀ after ∈ found, Onward after := by
  intro after member
  refine ⟨List.flatMap_eq_nil_iff.mp cut after member, fun step registered atEnd => ?_⟩
  have listed := List.mem_flatMap.mpr ⟨after, member, registered⟩
  have offset := (inside step listed).rest_eq_nil_iff.mp atEnd
  obtain ⟨other, stays, same⟩ : ∃ other ∈ keepNew (fun step : Step ε κ => step.stop.offset) seen _,
      other.stop.offset = step.stop.offset := exists_mem_keepNew listed (offset ▸ unseen)
  have place := inside other ((keepNew_sublist _ _ _).subset stays)
  exact kept other stays (place.rest_eq_nil_iff.mpr (same.trans offset))

/-- One more sentence behind each of the steps leads to places within the beginning, and to the same
ones in both texts if nothing is cut off and no sentence gets to the end of the beginning. -/
theorem advances_mirror (mirrors : NamedMirrors pair [] named)
    (alike : StepsAlike pair frontier frontier')
    (reached : ∀ step ∈ frontier', Reached (pair.short []) pair.front first step)
    (nowhere : ∀ step ∈ frontier', step.stop.rest ≠ [])
    (further : first = true ∨ pair.config.severalSentences = true)
    (twins : Twins pair progress progress') :
    let run := (frontier.mapM (advance (pair.long []) named first)).run progress
    let run' := (frontier'.mapM (advance (pair.short []) named first)).run progress'
    (∀ step ∈ run'.1.flatMap Prod.fst, Reached (pair.short []) pair.front false step) ∧
      (pair.more = [] ∨ (∀ found ∈ run'.1, Onward found) →
        StepsAlike pair (run.1.flatMap Prod.fst) (run'.1.flatMap Prod.fst) ∧
          Twins pair run.2 run'.2) := by
  intro run run'
  have reaches := (Ensures.mapM (fun _ (found : Advanced ε κ) => ∀ step ∈ found.1,
      Reached (pair.short []) pair.front false step) fun step member =>
    advance_reaches mirrors.sound (reached step member) further) progress' twins.derived
  refine ⟨fun step member => ?_, fun onward => ?_⟩
  · obtain ⟨after, registered, member⟩ := List.mem_flatMap.mp member
    obtain ⟨_, _, reaches⟩ := exists_of_forall₂ reaches.1 registered
    exact reaches step member
  · obtain ⟨related, twins'⟩ := Mirrors.mapM Onward (fun (found found' : Advanced ε κ) =>
        pair.more = [] ∨ Onward found' → StepsAlike pair found.1 found'.1) alike
      (fun step step' same member => advance_mirrors mirrors first same.1 same.2
        (reached step' member).inside (.inr (nowhere step' member))) progress progress' twins onward
    have steps := forall₂_imp_mem related fun found found' member same =>
      same (onward.imp_right fun all => all found' member)
    exact ⟨List.rel_flatMap steps fun _ _ same => same, twins'⟩

theorem rounds_mirror (mirrors : NamedMirrors pair [] named)
    (alike : StepsAlike pair frontier frontier')
    (reached : ∀ step ∈ frontier', Reached (pair.short []) pair.front first step)
    (nothing : readings.whole = none) (nothing' : readings'.whole = none)
    (supply : Supply pair.front seen frontier' left) (unseen : EndUnseen pair.front seen frontier')
    (twins : Twins pair progress progress')
    (silent : pair.more = [] ∨
      ((rounds (pair.short []) named left first seen frontier' readings').run
          progress').1.whole = none ∧
        ((rounds (pair.short []) named left first seen frontier' readings').run
          progress').1.cut = []) :
    let run := (rounds (pair.long []) named left first seen frontier readings).run progress
    let run' := (rounds (pair.short []) named left first seen frontier' readings').run progress'
    run.1.whole.isSome = run'.1.whole.isSome ∧ (run'.1.whole = none → Twins pair run.2 run'.2) := by
  induction left generalizing first seen frontier frontier' readings readings' progress progress' with
  | zero => exact absurd supply.positive (Nat.lt_irrefl 0)
  | succ left ih =>
    intro run run'
    change pair.more = [] ∨ (run'.1.whole = none ∧ run'.1.cut = []) at silent
    by_cases atEnd : ∃ step ∈ frontier', step.stop.rest = []
    -- If the beginning is a script, then it is the whole text that is.
    · have some' : run'.1.whole.isSome = true := round_finds atEnd
      have whole : pair.more = [] := by
        refine silent.resolve_right fun quiet => ?_
        rw [quiet.1] at some'
        cases some'
      have some : run.1.whole.isSome = true := by
        obtain ⟨step', member', ended⟩ := atEnd
        obtain ⟨step, member, same, -⟩ := exists_of_forall₂ alike member'
        exact round_finds ⟨step, member, by simp [same, ended, whole]⟩
      refine ⟨some.trans some'.symm, fun none => ?_⟩
      rw [none] at some'
      cases some'
    have nowhere' : ∀ step ∈ frontier', step.stop.rest ≠ [] :=
      fun step member ended => atEnd ⟨step, member, ended⟩
    have nowhere : ∀ step ∈ frontier, step.stop.rest ≠ [] := by
      intro step member ended
      obtain ⟨step', member', same, -⟩ := exists_of_forall₂ alike.flip member
      rw [same, Cursor.continued_rest, List.append_eq_nil_iff] at ended
      exact nowhere' step' member' ended.1
    have empty : frontier.isEmpty = frontier'.isEmpty := by
      cases alike <;> rfl
    by_cases closing : frontier'.isEmpty = true ∨
      ¬(first = true ∨ pair.config.severalSentences = true)
    · have ends := forM_mirrors alike .endOfInput progress progress' twins (.inr trivial)
      have ended : run = _ := round_ends nothing nowhere (empty.symm ▸ closing)
      have ended' : run' = _ := round_ends nothing' nowhere' closing
      rw [ended, ended']
      exact ⟨rfl, fun _ => ends.2⟩
    · obtain ⟨some, further⟩ := not_or.mp closing
      have some' : frontier' ≠ [] := fun none => some (List.isEmpty_iff.mpr none)
      have some : frontier ≠ [] := fun none => some (empty ▸ List.isEmpty_iff.mpr none)
      have further := Decidable.not_not.mp further
      obtain ⟨reaches, mirrored⟩ :=
        advances_mirror mirrors alike reached nowhere' further twins
      cases read : (frontier.mapM (advance (pair.long []) named first)).run progress with
      | mk found middle =>
        cases read' : (frontier'.mapM (advance (pair.short []) named first)).run progress' with
        | mk found' middle' =>
          rw [read'] at reaches mirrored
          rw [read] at mirrored
          have next : run = _ := round_next nothing nowhere some further read
          have next' : run' = _ := round_next nothing' nowhere' some' further read'
          have inside step (member : step ∈ found'.flatMap Prod.fst) := (reaches step member).inside
          have supply' := supply.next some' inside
          have unseen' : Text.byteSize pair.front ∉ seen := fun seen => atEnd (unseen seen)
          rw [next'] at silent
          have onward : pair.more = [] ∨ ∀ after ∈ found', Onward after := by
            refine silent.imp_right fun quiet => ?_
            obtain ⟨cut, kept⟩ := quiet_rounds supply'.positive quiet.1 quiet.2
            exact onward_of_kept inside unseen' (List.append_eq_nil_iff.mp cut).2 kept
          obtain ⟨steps, twins'⟩ := mirrored onward
          have kept : StepsAlike pair
              (keepNew (fun step => step.stop.offset) seen (found.flatMap Prod.fst))
              (keepNew (fun step => step.stop.offset) seen (found'.flatMap Prod.fst)) :=
            forall₂_keepNew steps (fun _ _ same => congrArg Cursor.offset same.1) _
          rw [next, next', kept.offsets]
          refine ih kept (fun step member => reaches step ((keepNew_sublist _ _ _).subset member))
            rfl rfl supply' (fun seen => ?_) twins' silent
          rcases List.mem_append.mp seen with now | before
          · obtain ⟨step, member, offset⟩ := List.mem_map.mp now
            have place := inside step ((keepNew_sublist _ _ _).subset member)
            exact ⟨step, member, place.rest_eq_nil_iff.mpr offset⟩
          · exact absurd before unseen'

end

/-! ### Scripts -/

/-- The state in which the search through a text begins. -/
def Progress.start (text : List Char) : Progress ε κ := { failure := { place := ⟨0, text⟩ } }

/-- The search for a script in the whole text. -/
def Beginning.longRun (pair : Beginning ε κ) : ScriptReadings ε κ × Progress ε κ :=
  (readScript (pair.long []) ⟨0, pair.front ++ pair.more⟩).run (.start (pair.front ++ pair.more))

/-- The search for completions in the beginning. -/
def Beginning.shortRun (pair : Beginning ε κ) : ScriptReadings ε κ × Progress ε κ :=
  (readScript (pair.short []) ⟨0, pair.front⟩).run (.start pair.front)

/-- If the beginning is no script and nothing is cut off at its end, or if it is the whole text, then
either both are scripts or neither is, and then they fail in the same way. -/
theorem runs_mirror (pair : Beginning ε κ)
    (silent : pair.more = [] ∨ (pair.shortRun.1.whole = none ∧ pair.shortRun.1.cut = [])) :
    pair.longRun.1.whole.isSome = pair.shortRun.1.whole.isSome ∧
      (pair.shortRun.1.whole = none →
        pair.longRun.2.failure = pair.shortRun.2.failure.continued pair.more) := by
  have size : Text.byteSize pair.front ≤ Text.byteSize (pair.front ++ pair.more) := by
    rw [Text.byteSize_append]
    omega
  have levels : levelsFor pair.registry pair.front ≤
      levelsFor pair.registry (pair.front ++ pair.more) :=
    Nat.succ_le_succ (Nat.mul_le_mul_left _ (Nat.succ_le_succ size))
  -- The search through the beginning may have the levels and rounds of the other one.
  have same : pair.shortRun = (readScriptWith (levelsFor pair.registry (pair.front ++ pair.more))
      (Text.byteSize (pair.front ++ pair.more) + 2) (pair.short []) ⟨0, pair.front⟩).run
        (.start pair.front) :=
    (readScriptWith_eq rfl levels (by omega) (.start pair.front)
      (by simp [Derived, Progress.start])).1.symm
  have twins : Twins pair (.start (pair.front ++ pair.more)) (.start pair.front) :=
    ⟨.nil, rfl, by simp [Derived, Progress.start]⟩
  have supply := firstStep_supply (ε := ε) (κ := κ) (show Text.byteSize pair.front + 2 ≤
    Text.byteSize (pair.front ++ pair.more) + 2 by omega)
  rw [same] at silent ⊢
  have onward : pair.more = [] ∨ (firstStep ε κ pair.front).stop.rest ≠ [] :=
    silent.imp_right fun quiet =>
      (quiet_rounds supply.positive quiet.1 quiet.2).2 _ List.mem_cons_self
  have first : (firstStep ε κ (pair.front ++ pair.more)).stop =
      (firstStep ε κ pair.front).stop.continued pair.more := (readGap_continued onward).1
  have long : pair.longRun = (rounds (pair.long [])
      (readType (levelsFor pair.registry (pair.front ++ pair.more)))
      (Text.byteSize (pair.front ++ pair.more) + 2) true
      [(firstStep ε κ (pair.front ++ pair.more)).stop.offset]
      [firstStep ε κ (pair.front ++ pair.more)] {}).run (.start (pair.front ++ pair.more)) := rfl
  rw [first, Cursor.continued_offset] at long
  have unseen : EndUnseen pair.front [(firstStep ε κ pair.front).stop.offset]
      [firstStep ε κ pair.front] := fun seen => ⟨_, List.mem_cons_self,
    firstStep_inside.rest_eq_nil_iff.mpr (List.mem_singleton.mp seen).symm⟩
  have nothing : (({} : ScriptReadings ε κ)).whole = none := rfl
  have mirror := rounds_mirror (readType_mirrors pair [] _) (.cons ⟨first, rfl⟩ .nil)
    (fun step member => List.mem_singleton.mp member ▸ firstStep_reached) nothing nothing supply
    unseen twins silent
  rw [long]
  exact ⟨mirror.1, fun none => (mirror.2 none).failure⟩

end SentenceGrammar.Matching
