import SentenceGrammar.Preprocess.Language
import SentenceGrammar.Proofs.RegistryContents
import SentenceGrammar.Proofs.Transactions

/-!
# The grammar of the preprocessing language

At the beginning of a pass the type `units` is taken back and defined anew, and nothing else of the
grammar ever changes. So the grammar of a pass depends on the calibration and not on the passes
before. It holds the sentences, `filter-size`, and `units` with one or two alternatives.
-/
namespace SentenceGrammar

/-- The definition has a pattern that can be read, and its name can be given to a type. -/
def Definition.Feasible {ε κ : Type} (definition : Definition ε κ) : Prop :=
  (∃ pattern, Pattern.read definition.pattern = .ok pattern) ∧
    ∀ name, definition.name = some name → IsTypeName name

namespace Registry

variable {ε κ : Type} {registry registry' : Registry ε κ} {name : String}

/-! ### Defining a type anew -/

/-- The registry without a type. -/
def without (name : String) (registry : Registry ε κ) : Registry ε κ :=
  { registry with
    types := registry.types.filter fun entry => entry.name ≠ name
    completers := registry.completers.filter fun entry => entry.1 ≠ name }

theorem undefine_eq (defined : registry.containsType name = true) :
    registry.undefine name = .ok (registry.without name) := undefine_ok_iff.mpr ⟨defined, rfl⟩

theorem without_without : (registry.without name).without name = registry.without name := by
  simp [without]

private theorem filter_addAlternative (alternative : Alternative ε κ)
    (types : List (TypeEntry ε κ)) :
    (addAlternative name alternative types).filter (fun entry => entry.name ≠ name) =
      types.filter fun entry => entry.name ≠ name := by
  induction types with
  | nil => simp [addAlternative]
  | cons entry rest ih =>
    rw [addAlternative]
    split
    next same => simp [same]
    next =>
      split
      · simp
      · rw [List.filter_cons, ih, List.filter_cons]

private theorem exists_mem_addAlternative (name : String) (alternative : Alternative ε κ)
    (types : List (TypeEntry ε κ)) :
    ∃ entry ∈ addAlternative name alternative types, entry.name = name := by
  induction types with
  | nil => exact ⟨_, List.mem_cons_self, rfl⟩
  | cons entry rest ih =>
    rw [addAlternative]
    split
    next same => exact ⟨_, List.mem_cons_self, same⟩
    next =>
      split
      · exact ⟨_, List.mem_cons_self, rfl⟩
      · obtain ⟨found, member, same⟩ := ih
        exact ⟨found, List.mem_cons_of_mem _ member, same⟩

/-- A definition of a type concerns no other type. -/
theorem without_define {definition : Definition ε κ} (isNamed : definition.name = some name)
    (defined : registry.define definition = .ok registry') :
    registry'.containsType name = true ∧ registry'.without name = registry.without name := by
  obtain ⟨pattern, -, defined⟩ := exists_of_bind_ok defined
  rw [isNamed] at defined
  obtain ⟨_, -, same⟩ := exists_of_bind_ok defined
  cases same
  constructor
  · rw [containsType, entry?, List.find?_isSome]
    obtain ⟨entry, member, same⟩ := exists_mem_addAlternative name _ registry.types
    exact ⟨entry, member, by simpa using same⟩
  · rw [without, filter_addAlternative]
    rfl

/-! ### Calls that all have to succeed -/

/-- Make calls one after the other, up to the first one that fails. -/
def applyAll (calls : List (Call ε κ)) (registry : Registry ε κ) :
    Except GrammarError (Registry ε κ) :=
  calls.foldlM Call.apply registry

theorem Holds.applyAll (further : List (Call ε κ)) : ∀ {registry calls}, registry.Holds calls →
    Registry.applyAll further registry = .ok registry' → registry'.Holds (calls ++ further) := by
  induction further with
  | nil =>
    rintro registry calls holds ⟨⟩
    rwa [List.append_nil]
  | cons call rest ih =>
    intro registry calls holds done
    obtain ⟨between, first, others⟩ := exists_of_bind_ok done
    have contents := ih (holds.apply first) others
    rwa [List.append_assoc, List.singleton_append] at contents

theorem since_append_define (definitions : List (Definition ε κ)) : ∀ calls : List (Call ε κ),
    since name (calls ++ definitions.map .define) = since name calls ++ definitions.map .define := by
  induction definitions with
  | nil => simp
  | cons definition rest ih =>
    intro calls
    rw [List.map_cons, List.append_cons, ih, since_concat, if_neg (by simp [Call.undefines]),
      List.append_assoc, List.singleton_append]

theorem since_define (definitions : List (Definition ε κ)) :
    since name (definitions.map Call.define) = definitions.map .define :=
  since_append_define definitions []

theorem definitionsOf_append {owner : Option String} (front back : List (Call ε κ)) :
    definitionsOf owner (front ++ back) = definitionsOf owner front ++ definitionsOf owner back := by
  simp [definitionsOf]

theorem definitionsOf_define {owner : Option String} (definitions : List (Definition ε κ)) :
    definitionsOf owner (definitions.map .define) =
      definitions.filter fun definition => definition.name = owner := by
  rw [definitionsOf, List.filterMap_map]
  exact congrArg _ List.filterMap_some

theorem definitionsOf_undefine {owner : Option String} (name : String) :
    definitionsOf owner [(Call.undefine name : Call ε κ)] = [] := rfl

theorem without_applyAll {definitions : List (Definition ε κ)}
    (named : ∀ definition ∈ definitions, definition.name = some name) :
    ∀ {registry}, applyAll (definitions.map .define) registry = .ok registry' →
      (registry.containsType name = true ∨ definitions ≠ [] →
        registry'.containsType name = true) ∧
      registry'.without name = registry.without name := by
  induction definitions with
  | nil =>
    rintro registry ⟨⟩
    exact ⟨fun defined => defined.resolve_right (· rfl), rfl⟩
  | cons definition rest ih =>
    intro registry done
    obtain ⟨isNamed, others⟩ := List.forall_mem_cons.mp named
    obtain ⟨between, first, done⟩ := exists_of_bind_ok done
    obtain ⟨defined, same⟩ := without_define isNamed (mapError_ok_iff.mp first)
    obtain ⟨stays, sameThen⟩ := ih others done
    exact ⟨fun _ => stays (.inl defined), sameThen.trans same⟩

theorem applyAll_define_ok_iff {definitions : List (Definition ε κ)} : ∀ {registry},
    applyAll (definitions.map .define) registry = .ok registry' ↔
      definitions.foldlM define registry = .ok registry' := by
  induction definitions with
  | nil =>
    intro registry
    simp [applyAll, pure, Except.pure]
  | cons definition rest ih =>
    intro registry
    rw [List.map_cons, applyAll, List.foldlM_cons, List.foldlM_cons, Call.apply]
    cases registry.define definition with
    | error error =>
      constructor
      · intro fails
        cases fails
      · intro fails
        cases fails
    | ok between => exact ih

/-- Definitions that can be read and named succeed wherever they are made. -/
theorem exists_foldlM_define {definitions : List (Definition ε κ)}
    (feasible : ∀ definition ∈ definitions, definition.Feasible) :
    ∀ registry, ∃ registry' : Registry ε κ, definitions.foldlM define registry = .ok registry' := by
  induction definitions with
  | nil => exact fun registry => ⟨registry, rfl⟩
  | cons definition rest ih =>
    intro registry
    obtain ⟨here, others⟩ := List.forall_mem_cons.mp feasible
    obtain ⟨between, defined⟩ : ∃ between, registry.define definition = .ok between :=
      define_ok_iff.mpr here
    rw [List.foldlM_cons, defined]
    exact ih others between

end Registry

namespace Preprocess

open Registry (Call mapError_ok_iff)

variable {ε κ τ : Type}

/-! ### Definitions -/

/-- A way to write a unit. -/
def unitDefinition (pattern : String) (physical : Bool) : Definition (Rule ε) κ :=
  { name := some "units", pattern, evaluator := some (.unit physical) }

/-- The ways to write the units of a calibration. -/
def unitDefinitions (calibration : Calibration) : List (Definition (Rule ε) κ) :=
  unitDefinition "pixel(s)" false ::
    if calibration.isCalibrated then [unitDefinition calibration.unit true] else []

def sizeDefinition : Definition (Rule ε) κ :=
  { name := some "filter-size", pattern := "\x7bstddev:float\x7d \x7bunits:units\x7d",
    evaluator := some .filterSize, insertWhole := true }

def sentenceDefinition (sentence : String × Rule ε) : Definition (Rule ε) κ :=
  { name := none, pattern := sentence.1, evaluator := some sentence.2 }

theorem definitions_eq : (definitions : List (Definition (Rule ε) κ)) =
    unitDefinition "pixel(s)" false :: sizeDefinition :: sentences.map sentenceDefinition := rfl

/-! ### What the patterns say -/

/-- The parts of a size: a number and a unit. -/
def sizeParts : List Part :=
  [.slot "stddev" (.builtin .float) .one, .literal " ".toList, .slot "units" (.named "units") .one]

/-- The parts of a sentence with just one size, at its end. -/
def sizedParts (lead name : String) : List Part :=
  [.literal lead.toList, .slot name (.named "filter-size") .one, .literal ".".toList]

/-- The characters of the name of a mask. -/
def maskClass : CharClass := ⟨false, [('a', 'z'), ('-', '-')], "a-z-"⟩

/-- The parts of all sentences with their evaluators. -/
def sentenceParts : List (List Part × Rule ε) :=
  [(sizedParts "Apply Gaussian blurring with a standard deviation of " "stddev", .gaussianBlur),
    (sizedParts "Apply Median filtering with a window of radius " "window-size",
      .medianFilter "window-size"),
    ([.literal "Normalize intensities.".toList], .normalizeIntensities),
    (sizedParts "Subtract the background with a standard deviation of " "window-size",
      .subtractBackground),
    (sizedParts "Apply a Median filter with radius of " "radius", .medianFilter "radius"),
    ([.literal "Apply an Unsharp Mask with radius of ".toList,
        .slot "radius" (.named "filter-size") .one, .literal " and mask weight of ".toList,
        .slot "weight" (.builtin .float) .one, .literal ".".toList], .unsharpMask),
    ([.literal "Enhance local contrast via CLAHE with a blocksize of ".toList,
        .slot "block-size" (.builtin .int) .one, .literal ", ".toList,
        .slot "bins" (.builtin .int) .one, .literal " histogram bins and a max slope of ".toList,
        .slot "slope" (.builtin .int) .one, .literal ", using ".toList,
        .slot "image" (.charClass maskClass) .oneOrMore, .literal " as a mask.".toList],
      .localContrast)]

/-- The text is a pattern with these parts. -/
def HasParts (source : String) (parts : List Part) : Prop :=
  ∃ pattern, Pattern.read source = .ok pattern ∧ pattern.items.map Item.part = parts

private def parts? (source : String) : Option (List Part) :=
  match Pattern.read source with
  | .ok pattern => some (pattern.items.map Item.part)
  | .error _ => none

private theorem hasParts_of {source : String} {parts : List Part}
    (reads : parts? source = some parts) : HasParts source parts := by
  unfold parts? at reads
  split at reads
  next pattern read => exact ⟨pattern, read, Option.some.inj reads⟩
  next => cases reads

theorem pixels_hasParts : HasParts "pixel(s)" [.literal "pixel(s)".toList] :=
  hasParts_of (by decide +kernel)

theorem size_hasParts : HasParts "\x7bstddev:float\x7d \x7bunits:units\x7d" sizeParts :=
  hasParts_of (by decide +kernel)

private theorem reading_of {source : String} {parts : List Part} (rule : Rule ε)
    (reads : parts? source = some parts) :
    HasParts (source, rule).1 (parts, rule).1 ∧ (parts, rule).2 = (source, rule).2 :=
  ⟨hasParts_of reads, rfl⟩

theorem sentences_hasParts :
    List.Forall₂ (fun sentence reading : _ × Rule ε => HasParts sentence.1 reading.1 ∧
      reading.2 = sentence.2) sentences sentenceParts :=
  .cons (reading_of _ (by decide +kernel)) <|
  .cons (reading_of _ (by decide +kernel)) <|
  .cons (reading_of _ (by decide +kernel)) <|
  .cons (reading_of _ (by decide +kernel)) <|
  .cons (reading_of _ (by decide +kernel)) <|
  .cons (reading_of _ (by decide +kernel)) <|
  .cons (reading_of _ (by decide +kernel)) .nil

/-- An alternative with these parts and the evaluator. -/
structure Shaped (parts : List Part) (rule : Rule ε) (chosen : Alternative (Rule ε) κ) : Prop where
  parts : chosen.pattern.items.map Item.part = parts
  evaluator : chosen.evaluator = some rule

theorem shaped_of_gives {parts : List Part} {rule : Rule ε} {definition : Definition (Rule ε) κ}
    {chosen : Alternative (Rule ε) κ} (gives : definition.Gives chosen)
    (reads : HasParts definition.pattern parts) (given : definition.evaluator = some rule) :
    Shaped parts rule chosen := by
  obtain ⟨pattern, read, parts⟩ := reads
  obtain ⟨pattern', read', rfl⟩ := gives
  cases read.symm.trans read'
  exact ⟨parts, given⟩

/-- What definitions give, sentence by sentence. -/
theorem shaped_of_sources {sources : List (String × Rule ε)} {readings : List (List Part × Rule ε)}
    (reads : List.Forall₂ (fun sentence reading => HasParts sentence.1 reading.1 ∧
      reading.2 = sentence.2) sources readings) :
    ∀ {given : List (Alternative (Rule ε) κ)},
      List.Forall₂ Definition.Gives (sources.map sentenceDefinition) given →
        List.Forall₂ (fun reading chosen => Shaped reading.1 reading.2 chosen) readings given := by
  induction reads with
  | nil =>
    rintro given ⟨⟩
    exact .nil
  | cons first _ ih =>
    rintro given (_ | ⟨gives, others⟩)
    exact .cons (shaped_of_gives gives first.1 (congrArg some first.2.symm)) (ih others)

theorem isTypeName_units : IsTypeName "units" := by
  unfold IsTypeName
  decide +kernel

theorem unitDefinition_feasible {pattern : String} {physical : Bool} {parts : List Part}
    (reads : HasParts pattern parts) :
    (unitDefinition pattern physical : Definition (Rule ε) κ).Feasible :=
  ⟨reads.imp fun _ => And.left, fun _ same => Option.some.inj same ▸ isTypeName_units⟩

theorem sizeDefinition_feasible : (sizeDefinition : Definition (Rule ε) κ).Feasible := by
  have named : IsTypeName "filter-size" := by
    unfold IsTypeName
    decide +kernel
  exact ⟨size_hasParts.imp fun _ => And.left, fun _ same => Option.some.inj same ▸ named⟩

theorem definitions_feasible :
    ∀ definition ∈ (definitions : List (Definition (Rule ε) κ)), definition.Feasible := by
  rw [definitions_eq, List.forall_mem_cons, List.forall_mem_cons]
  refine ⟨unitDefinition_feasible pixels_hasParts, sizeDefinition_feasible, ?_⟩
  intro definition member
  obtain ⟨sentence, listed, rfl⟩ := List.mem_map.mp member
  have reads : (∀ sentence ∈ (sentences : List (String × Rule ε)),
        ∃ pattern, Pattern.read sentence.1 = .ok pattern) ∧
      List.Forall₂ (fun _ _ => True) sentences (sentenceParts : List (List Part × Rule ε)) :=
    (List.forall₂_and_left _ _).mp (sentences_hasParts.imp fun _ _ reads =>
      ⟨reads.1.imp fun _ => And.left, trivial⟩)
  exact ⟨reads.1 sentence listed, nofun⟩

/-- The grammar of the language can be set up. -/
theorem grammar_ok : ∃ base : Registry (Rule ε) κ, grammar = .ok base ∧
    base.Holds (definitions.map .define) := by
  obtain ⟨base, set⟩ := Registry.exists_foldlM_define definitions_feasible
    ({} : Registry (Rule ε) κ)
  exact ⟨base, set, Registry.empty_holds.applyAll _ (Registry.applyAll_define_ok_iff.mpr set)⟩

/-! ### Before every pass -/

/-- The calls that a pass begins with. -/
def unitCalls (calibration : Calibration) : List (Call (Rule ε) κ) :=
  .undefine "units" :: (unitDefinitions calibration).map .define

/-- The grammar that a pass goes on with. -/
abbrev tune (calibration : Calibration) (registry : Registry (Rule ε) κ) :
    Except GrammarError (Registry (Rule ε) κ) :=
  registry.applyAll (unitCalls calibration)

section

variable {call : Call (Rule ε) κ} {registry registry' : Registry (Rule ε) κ} {world : World τ}
  {cause : GrammarError}

/-- The change of a grammar that a call is for. -/
def make (call : Call (Rule ε) κ) : GrammarWork (Rule ε) κ (World τ) Unit :=
  GrammarWork.change fun registry => call.apply registry

theorem make_ok (done : call.apply registry = .ok registry') :
    (make call).run.run (registry, world) = (.ok (), (registry', world)) := by
  rw [make, GrammarWork.change, Parser.run_bind_ok (Parser.run_get _)]
  simp only [done]
  rfl

theorem make_error (fails : call.apply registry = .error cause) :
    (make call).run.run (registry, world) = (.error cause, (registry, world)) := by
  rw [make, GrammarWork.change, Parser.run_bind_ok (Parser.run_get _)]
  simp only [fails]
  rfl

/-- Calls that are made one after the other fail or succeed like all of them at once. -/
theorem forM_make_run (calls : List (Call (Rule ε) κ)) : ∀ registry : Registry (Rule ε) κ,
    ∃ left, (forM calls make).run.run (registry, world) =
      ((registry.applyAll calls).map fun _ => (), (left, world)) ∧
      ∀ tuned, registry.applyAll calls = .ok tuned → left = tuned := by
  induction calls with
  | nil => exact fun registry => ⟨registry, rfl, fun tuned same => Except.ok.inj same⟩
  | cons call rest ih =>
    intro registry
    rw [List.forM_cons, Registry.applyAll, List.foldlM_cons]
    cases outcome : call.apply registry with
    | ok between =>
      rw [Parser.run_bind_ok (make_ok outcome)]
      exact ih between
    | error cause =>
      rw [Parser.run_bind_error (make_error outcome)]
      exact ⟨registry, rfl, nofun⟩

theorem followCalibration_eq : (followCalibration : GrammarWork (Rule ε) κ (World τ) Unit) = (do
    forM (unitCalls (← get).2.image.calibration) make) := by
  unfold followCalibration unitCalls
  congr 1
  funext state
  unfold unitDefinitions
  cases calibrated : state.2.image.calibration.isCalibrated <;> simp [calibrated] <;> rfl

/-- The listener makes the calls on behalf of the calibration at that time. -/
theorem followCalibration_run (registry : Registry (Rule ε) κ) (world : World τ) :
    ∃ left, followCalibration.run.run (registry, world) =
      ((tune world.image.calibration registry).map fun _ => (), (left, world)) ∧
      ∀ tuned, tune world.image.calibration registry = .ok tuned → left = tuned := by
  rw [followCalibration_eq, Parser.run_bind_ok (Parser.run_get _)]
  exact forM_make_run _ registry

end

/-! ### After any passes -/

section

variable {base registry tuned : Registry (Rule ε) κ} {calibration : Calibration}

/-- Apart from the units, a registry is what it was in the beginning. -/
structure Retains (base registry : Registry (Rule ε) κ) : Prop where
  units : registry.containsType "units" = true
  rest : registry.without "units" = base.without "units"

theorem tune_eq (units : registry.containsType "units" = true) : tune calibration registry =
    (registry.without "units").applyAll (unitCalls calibration).tail := by
  rw [tune, unitCalls, Registry.applyAll, List.foldlM_cons, Call.apply, Registry.undefine_eq units]
  rfl

/-- The grammar of a pass does not depend on earlier ones. -/
theorem Retains.tune_eq (retains : Retains base registry)
    (units : base.containsType "units" = true) :
    tune calibration registry = tune calibration base := by
  rw [Preprocess.tune_eq retains.units, Preprocess.tune_eq units, retains.rest]

theorem name_of_mem_unitDefinitions :
    ∀ definition ∈ (unitDefinitions calibration : List (Definition (Rule ε) κ)),
      definition.name = some "units" := by
  intro definition member
  unfold unitDefinitions at member
  split at member <;> simp at member
  · rcases member with rfl | rfl <;> rfl
  · rw [member]
    rfl

theorem tune_retains (units : registry.containsType "units" = true)
    (done : tune calibration registry = .ok tuned) : Retains registry tuned := by
  rw [tune_eq units, unitCalls, List.tail_cons] at done
  obtain ⟨defined, same⟩ := Registry.without_applyAll name_of_mem_unitDefinitions done
  exact ⟨defined (.inr nofun), same.trans Registry.without_without⟩

/-! ### What the grammar of a pass holds -/

/-- The grammar of a pass under a calibration. -/
structure Tuned (calibration : Calibration) (registry : Registry (Rule ε) κ) : Prop where
  units : List.Forall₂ Definition.Gives (unitDefinitions calibration)
    (registry.alternatives "units")
  sizes : ∃ chosen, registry.alternatives "filter-size" = [chosen] ∧
    Shaped sizeParts .filterSize chosen
  others : ∀ name, name ≠ "units" → name ≠ "filter-size" → registry.alternatives name = []
  sentences : List.Forall₂ (fun reading chosen => Shaped reading.1 reading.2 chosen) sentenceParts
    registry.sentences

theorem unitDefinitions_filter (owner : Option String) :
    (unitDefinitions calibration : List (Definition (Rule ε) κ)).filter
        (fun definition => definition.name = owner) =
      if owner = some "units" then unitDefinitions calibration else [] := by
  split
  next same =>
    refine List.filter_eq_self.mpr fun definition member => ?_
    simp [name_of_mem_unitDefinitions definition member, same]
  next other =>
    refine List.filter_eq_nil_iff.mpr fun definition member => ?_
    simpa [name_of_mem_unitDefinitions definition member] using Ne.symm other

theorem definitions_filter {name : String} (units : name ≠ "units") :
    (definitions : List (Definition (Rule ε) κ)).filter
        (fun definition => definition.name = some name) =
      if name = "filter-size" then [sizeDefinition] else [] := by
  have sentences : (Preprocess.sentences.map sentenceDefinition : List (Definition (Rule ε) κ)).filter
      (fun definition => definition.name = some name) = [] := by
    refine List.filter_eq_nil_iff.mpr fun definition member => ?_
    obtain ⟨sentence, -, rfl⟩ := List.mem_map.mp member
    simp [sentenceDefinition]
  rw [definitions_eq, List.filter_cons, List.filter_cons, sentences]
  simp [unitDefinition, sizeDefinition, units, eq_comm]

theorem tuned_of_holds (holds : registry.Holds (definitions.map .define ++ unitCalls calibration)) :
    Tuned calibration registry := by
  rw [unitCalls, List.append_cons] at holds
  have sentences := holds.sentences
  have alternatives name := holds.alternatives name
  simp only [Registry.since_append_define, Registry.since_concat, Registry.since_define,
    Registry.definitionsOf_append, Registry.definitionsOf_define, unitDefinitions_filter]
    at alternatives sentences
  -- Only the units are taken back, so of all others there is what there was in the beginning.
  have others {name : String} (other : name ≠ "units") : List.Forall₂ Definition.Gives
      (if name = "filter-size" then [sizeDefinition] else []) (registry.alternatives name) := by
    have listed := alternatives name
    rw [if_neg (by simpa [Call.undefines] using other.symm), if_neg (by simpa using other),
      Registry.definitionsOf_append, Registry.definitionsOf_define, definitions_filter other,
      Registry.definitionsOf_undefine, List.append_nil, List.append_nil] at listed
    exact listed
  refine ⟨alternatives "units", ?_, fun name units size => ?_, ?_⟩
  · obtain ⟨chosen, rest, gives, none, same⟩ := List.forall₂_cons_left_iff.mp
      (others (show "filter-size" ≠ "units" by decide))
    rw [List.forall₂_nil_left_iff.mp none] at same
    exact ⟨chosen, same, shaped_of_gives gives size_hasParts rfl⟩
  · have none := others units
    rw [if_neg size] at none
    exact List.forall₂_nil_left_iff.mp none
  · exact shaped_of_sources sentences_hasParts sentences

/-- The grammar of the language can be set up, and what is made of it before a pass is known. -/
theorem exists_grammar : ∃ base : Registry (Rule ε) κ, grammar = .ok base ∧
    base.containsType "units" = true ∧
      ∀ calibration tuned, tune calibration base = .ok tuned → Tuned calibration tuned := by
  obtain ⟨base, set, holds⟩ := grammar_ok (ε := ε) (κ := κ)
  refine ⟨base, set, ?_, fun calibration tuned done => tuned_of_holds (holds.applyAll _ done)⟩
  rw [holds.contains]
  intro none
  have listed := holds.alternatives "units"
  rw [Registry.since_define, Registry.definitionsOf_define, none] at listed
  cases listed

end

end Preprocess
end SentenceGrammar
