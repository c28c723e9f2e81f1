import Mathlib.Data.List.Perm.Subperm
import Mathlib.Data.List.ProdSigma
import SentenceGrammar.Proofs.Guards
import SentenceGrammar.Proofs.ScriptSoundness
import SentenceGrammar.Proofs.SentenceRows

/-!
# Termination

A search ends because none of its numbers runs out. The types being read within each other differ in
name or place, so there are not more of them than names and places. Each unit of a repetition ends
further on. Each step of a script that is kept stops at a new offset, so there are not more rounds
with steps than offsets, and one more to find that there are none.

## Main result

`search_raises_no_alarm`: a guarded search of a script does just what the search does, whatever the
alarm is, with the levels and rounds that the search has or any more of them.
-/
namespace SentenceGrammar.Matching

variable {ε κ : Type} {text : List Char} {scope : Scope ε κ} {guarded named : TypeReader ε κ}
  {kept : Known ε κ → Prop} {alarm : Search ε κ Unit}

/-! ### Levels -/

variable (text scope) in
/-- The types being read are different ones at places of the text, and so many levels are enough for
all others. -/
structure Room (levels : Nat) : Prop where
  distinct : scope.active.Nodup
  bounded : scope.active ⊆ scope.registry.typeNames ×ˢ List.range (Text.byteSize text + 1)
  enough : levelsFor scope.registry text ≤ levels + scope.active.length

theorem Room.positive {levels : Nat} (room : Room text scope levels) : 0 < levels := by
  have count := (room.distinct.subperm room.bounded).length_le
  have enough := room.enough
  rw [List.length_product, List.length_range, Registry.typeNames, List.length_map] at count
  unfold levelsFor at enough
  omega

theorem Room.enter {levels : Nat} (room : Room text scope (levels + 1)) {name : String}
    {place : Cursor} (inside : place.In text) (defined : name ∈ scope.registry.typeNames)
    (inactive : (name, place.offset) ∉ scope.active) :
    Room text { scope with active := scope.active ++ [(name, place.offset)] } levels where
  distinct := by
    refine List.nodup_append.mpr ⟨room.distinct, List.nodup_singleton _, ?_⟩
    rintro entry before other last rfl
    exact inactive (List.mem_singleton.mp last ▸ before)
  bounded := by
    refine List.append_subset.mpr ⟨room.bounded, List.cons_subset.mpr ⟨?_, List.nil_subset _⟩⟩
    exact List.mem_product.mpr ⟨defined, List.mem_range.mpr (Nat.lt_succ_of_le inside.offset_le)⟩
  enough := by
    have enough := room.enough
    simp only [List.length_append, List.length_singleton]
    omega

theorem mem_typeNames_of_contains {registry : Registry ε κ} {name : String}
    (defined : registry.containsType name = true) : name ∈ registry.typeNames := by
  obtain ⟨entry, found⟩ := Option.isSome_iff_exists.mp defined
  have same : entry.name = name := by simpa using List.find?_some found
  exact List.mem_map.mpr ⟨entry, List.mem_of_find?_eq_some found, same⟩

theorem readType_agree {levels levels' : Nat} (room : Room text scope levels)
    (room' : Room text scope levels') :
    NamedAgree scope.registry.alternatives text (Derived scope text) scope
      (Guarded.readType alarm levels) (readType levels') := by
  refine ⟨readType_derives text levels' scope, ?_⟩
  induction levels generalizing levels' scope with
  | zero => exact absurd room.positive (Nat.lt_irrefl 0)
  | succ levels ih =>
    intro name place inside defined
    obtain ⟨levels', rfl⟩ := Nat.exists_eq_succ_of_ne_zero (Nat.ne_of_gt room'.positive)
    rw [Guarded.readType, readType]
    refine (Agree.refl (Ensures.lookUp name place)).bind fun found entry => ?_
    cases found with
    | some known => exact .pure trivial
    | none =>
      dsimp only
      split
      · exact .pure trivial
      next inactive =>
        -- One more type is being read, and one level is gone.
        have listed := mem_typeNames_of_contains defined
        have inner := room.enter inside listed inactive
        have inner' := room'.enter inside listed inactive
        rw [if_neg (not_not_intro inner.distinct)]
        have agree := NamedAgree.mk (readType_derives text levels' _) (ih inner inner')
        refine (readAlternatives_agree agree _ inside).bind fun readings derived => ?_
        refine Agree.bind (.refl (Ensures.remember fun other inside' same => ?_))
          fun _ _ => .pure trivial
        obtain rfl := inside'.eq_of_offset inside same
        exact derived

/-! ### Rounds -/

theorem advance_agree (agree : NamedAgree scope.registry.alternatives text kept scope guarded named)
    {first : Bool} {step : Step ε κ} (reached : Reached scope text first step)
    (further : first = true ∨ scope.config.severalSentences = true) :
    Agree kept (Guarded.advance alarm scope guarded first step) (advance scope named first step)
      fun found => ∀ step ∈ found.1, Reached scope text false step := by
  refine Agree.ensuring ?_ (advance_reaches agree.sound reached further)
  obtain ⟨_, row, -, -⟩ := reached
  obtain ⟨_, passes⟩ := row.passes
  have inside := (Cursor.in_start text).passes passes
  have sentences : Agree kept
      (Guarded.readAlternatives alarm scope guarded scope.registry.sentences step.stop)
      (readAlternatives scope named scope.registry.sentences step.stop) _ :=
    readAlternatives_agree agree scope.registry.sentences inside
  rw [Guarded.advance, advance]
  dsimp only
  split
  · split
    · exact (Agree.refl (.expect _ _ _)).bind fun _ _ => sentences.bind fun _ _ => .pure trivial
    · exact sentences.bind fun _ _ => .pure trivial
  · exact .refl (.perhapsExpect fun _ => .pure trivial)

variable (text) in
/-- The offsets seen so far are different places of the text, and so many rounds are enough for the
steps to all others. -/
structure Supply (seen : List Nat) (frontier : List (Step ε κ)) (left : Nat) : Prop where
  distinct : seen.Nodup
  bounded : seen ⊆ List.range (Text.byteSize text + 1)
  positive : 0 < left
  enough : frontier ≠ [] → Text.byteSize text + 2 < left + seen.length

theorem Supply.next {seen : List Nat} {frontier found : List (Step ε κ)} {left : Nat}
    (supply : Supply text seen frontier (left + 1)) (going : frontier ≠ [])
    (inside : ∀ step ∈ found, step.stop.In text) :
    Supply text ((keepNew (fun step => step.stop.offset) seen found).map
      (fun step => step.stop.offset) ++ seen)
      (keepNew (fun step => step.stop.offset) seen found) left where
  distinct := by
    refine List.nodup_append.mpr
      ⟨List.pairwise_map.mpr (pairwise_keepNew _ _ _), supply.distinct, ?_⟩
    rintro offset now _ before rfl
    obtain ⟨step, kept, rfl⟩ := List.mem_map.mp now
    exact not_seen_of_mem_keepNew kept before
  bounded := by
    refine List.append_subset.mpr ⟨fun offset now => ?_, supply.bounded⟩
    obtain ⟨step, kept, rfl⟩ := List.mem_map.mp now
    have place := inside step ((keepNew_sublist _ _ _).subset kept)
    exact List.mem_range.mpr (Nat.lt_succ_of_le place.offset_le)
  positive := by
    have count := (supply.distinct.subperm supply.bounded).length_le
    have enough := supply.enough going
    rw [List.length_range] at count
    omega
  enough some := by
    have enough := supply.enough going
    have positive := List.length_pos_iff.mpr some
    rw [List.length_append, List.length_map]
    omega

theorem rounds_agree (agree : NamedAgree scope.registry.alternatives text kept scope guarded named)
    {left left' : Nat} {first : Bool} {seen : List Nat} {frontier : List (Step ε κ)}
    {readings : ScriptReadings ε κ} (reached : ∀ step ∈ frontier, Reached scope text first step)
    (supply : Supply text seen frontier left) (supply' : Supply text seen frontier left') :
    Agree kept (Guarded.rounds alarm scope guarded left first seen frontier readings)
      (rounds scope named left' first seen frontier readings) fun _ => True := by
  induction left generalizing left' first seen frontier readings with
  | zero => exact absurd supply.positive (Nat.lt_irrefl 0)
  | succ left ih =>
    obtain ⟨left', rfl⟩ := Nat.exists_eq_succ_of_ne_zero (Nat.ne_of_gt supply'.positive)
    unfold Guarded.rounds rounds
    extract_lets whole finish whole' finish'
    -- Whether a script was found so far is the same for both.
    have same : whole' = whole := rfl
    clear_value whole'
    subst same
    by_cases done : whole.isSome = true ∧ ¬scope.completing = true
    · simp only [if_pos done]
      exact .pure trivial
    · by_cases closing : frontier.isEmpty = true ∨
        ¬(first = true ∨ scope.config.severalSentences = true)
      · simp only [if_neg done, if_pos closing]
        split
        · exact .refl (Ensures.bind (.forM fun _ _ => .expect _ _ _) fun _ _ => .pure trivial)
        · exact .pure trivial
      · simp only [if_neg done, if_neg closing]
        obtain ⟨some, further⟩ := not_or.mp closing
        have some : frontier ≠ [] := fun empty => some (List.isEmpty_iff.mpr empty)
        refine (Agree.mapM (fun _ found => ∀ step ∈ found.1, Reached scope text false step)
          fun step member => advance_agree agree (reached step member)
            (Decidable.not_not.mp further)).bind fun found related => ?_
        have reaches : ∀ step ∈ found.flatMap Prod.fst, Reached scope text false step := by
          intro step member
          obtain ⟨steps, registered, member⟩ := List.mem_flatMap.mp member
          obtain ⟨_, _, reaches⟩ := exists_of_forall₂ related registered
          exact reaches step member
        have inside : ∀ step ∈ found.flatMap Prod.fst, step.stop.In text := by
          intro step member
          obtain ⟨_, row, -, -⟩ := reaches step member
          obtain ⟨_, passes⟩ := row.passes
          exact (Cursor.in_start text).passes passes
        have next := supply.next some inside
        rw [if_neg (not_not_intro next.distinct)]
        exact ih (fun step member => reaches step ((keepNew_sublist _ _ _).subset member)) next
          (supply'.next some inside)

/-- The search of a script with so many levels and rounds. -/
def readScriptWith (levels left : Nat) (scope : Scope ε κ) (start : Cursor) :
    Search ε κ (ScriptReadings ε κ) :=
  let (stop, leading) := readGap start
  rounds scope (readType levels) left true [stop.offset] [⟨stop, leading, true⟩] {}

/-- The step in front of all sentences. -/
def firstStep (ε κ : Type) (text : List Char) : Step ε κ :=
  let gap := readGap ⟨0, text⟩
  ⟨gap.1, gap.2, true⟩

theorem firstStep_reached : Reached scope text true (firstStep ε κ text) :=
  ⟨0, .leading (readGap_derives rfl), fun _ => rfl, fun _ => Nat.zero_le 1⟩

theorem firstStep_inside : (firstStep ε κ text).stop.In text := inside_skipBlank (Cursor.in_start text)

theorem firstStep_supply {left : Nat} (enough : Text.byteSize text + 2 ≤ left) :
    Supply text [(firstStep ε κ text).stop.offset] [firstStep ε κ text] left := by
  have inside : (firstStep ε κ text).stop.In text := firstStep_inside
  have offset := List.mem_range.mpr (Nat.lt_succ_of_le inside.offset_le)
  refine ⟨List.nodup_singleton _, List.cons_subset.mpr ⟨offset, List.nil_subset _⟩, by omega, ?_⟩
  intro
  rw [List.length_singleton]
  omega

/-- Guarded or not, and with however many levels and rounds from some number on, the search of a
script is the same. -/
theorem readScript_agree (outside : scope.active = []) {levels levels' left left' : Nat}
    (enough : levelsFor scope.registry text ≤ levels)
    (enough' : levelsFor scope.registry text ≤ levels')
    (rounds : Text.byteSize text + 2 ≤ left) (rounds' : Text.byteSize text + 2 ≤ left') :
    Agree (Derived scope text) (Guarded.readScript alarm levels left scope ⟨0, text⟩)
      (readScriptWith levels' left' scope ⟨0, text⟩) fun _ => True := by
  have room {levels : Nat} (enough : levelsFor scope.registry text ≤ levels) :
      Room text scope levels := by
    refine ⟨?_, ?_, by omega⟩ <;> simp [outside]
  have begins : ∀ step ∈ [firstStep ε κ text], Reached scope text true step := by
    intro step member
    rw [List.mem_singleton.mp member]
    exact firstStep_reached
  exact rounds_agree (readType_agree (room enough) (room enough')) begins (firstStep_supply rounds)
    (firstStep_supply rounds')

theorem readScriptWith_eq (outside : scope.active = []) {levels left : Nat}
    (enough : levelsFor scope.registry text ≤ levels) (rounds : Text.byteSize text + 2 ≤ left) :
    Agree (Derived scope text) (readScriptWith levels left scope ⟨0, text⟩)
      (readScript scope ⟨0, text⟩) fun _ => True := by
  have agree {levels left : Nat} (enough : levelsFor scope.registry text ≤ levels)
      (rounds : Text.byteSize text + 2 ≤ left) :
      Agree (Derived scope text)
        (Guarded.readScript (pure ()) (levelsFor scope.registry text) (Text.byteSize text + 2) scope
          ⟨0, text⟩)
        (readScriptWith levels left scope ⟨0, text⟩) fun _ => True :=
    readScript_agree outside (Nat.le_refl _) enough (Nat.le_refl _) rounds
  exact (agree enough rounds).symm.trans (agree (Nat.le_refl _) (Nat.le_refl _))

/-- Whatever the grammar and the text are, no alarm is raised: as many levels suffice as there are
names and places, the types being read are different from each other in name or place, every unit of
a repetition begins further on than the one before, every step that is kept stops at a new offset,
and so many rounds suffice as the text has bytes, and two. -/
theorem search_raises_no_alarm (registry : Registry ε κ) (config : Config) (completing : Bool)
    (text : String) (alarm : Search ε κ Unit) (moreLevels moreRounds : Nat) :
    (Guarded.readScript alarm (levelsFor registry text.toList + moreLevels)
        (Text.byteSize text.toList + 2 + moreRounds) { registry, config, completing }
        (Cursor.ofText text)).run { failure := { place := Cursor.ofText text } } =
      (readScript { registry, config, completing } (Cursor.ofText text)).run
        { failure := { place := Cursor.ofText text } } :=
  (readScript_agree rfl (Nat.le_add_right _ _) (Nat.le_refl _) (Nat.le_add_right _ _)
    (Nat.le_refl _) _ (by simp [Derived])).1

end SentenceGrammar.Matching
