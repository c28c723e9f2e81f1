import SentenceGrammar.Proofs.ReadParts
import SentenceGrammar.Proofs.Refinement
import SentenceGrammar.Proofs.ScriptAcceptance

/-!
# Texts that are one sentence

A text that can be read as one sentence is read as one, even where it could be read as several:
scripts of fewer sentences come first. It need not be the same reading, though, since of several
that stop at the same place the first one is taken.
-/
namespace SentenceGrammar.Matching

open Enumerate
open Text (isBlank)

variable {ε κ : Type} {registry : Registry ε κ} {config : Config} {text : String}

/-- Without left recursion, every derivation of a sentence is among the readings, up to those that
stop at the same place. -/
theorem readSentences_derives {text : List Char}
    (acyclic : NoLeftRecursion registry.alternatives config text) {place : Cursor}
    (inside : place.In text) :
    Ensures (Faithful registry config text [])
      (readAlternatives ⟨registry, config, false, []⟩ (readType (levelsFor registry text))
        registry.sentences place)
      fun readings =>
        (∀ reading ∈ readings.whole,
          DerivesOneOf registry.alternatives config registry.sentences place reading) ∧
        ∀ reading, DerivesOneOf registry.alternatives config registry.sentences place reading →
          ∃ found ∈ readings.whole, found.stop = reading.stop := by
  have listed {reading : TypeReading ε κ} :
      reading ∈ oneOf config (canonical registry config text) registry.sentences place ↔
        DerivesOneOf registry.alternatives config registry.sentences place reading :=
    mem_oneOf_canonical_iff acyclic registry.sentences inside
  refine (readSentences_refines (acyclic.noMutual _ _) false inside (Nat.le_refl _)).weaken
    fun readings whole => ?_
  have sound : ∀ reading ∈ readings.whole,
      DerivesOneOf registry.alternatives config registry.sentences place reading := by
    intro reading member
    rw [whole] at member
    exact listed.mp ((keepNew_sublist _ _ _).subset member)
  refine ⟨sound, fun reading derived => ?_⟩
  obtain ⟨found, kept, stops⟩ := exists_mem_keepNew (listed.mpr derived) List.not_mem_nil
  have member : found ∈ readings.whole := whole ▸ kept
  obtain ⟨_, one⟩ := (sound found member).2.passes
  obtain ⟨_, other⟩ := derived.2.passes
  exact ⟨found, member, (inside.passes one).eq_of_offset (inside.passes other) stops⟩

/-- The node of a sentence. -/
def TypeReading.sentence (reading : TypeReading ε κ) (start : Cursor) : Node ε κ :=
  .covering start reading.stop none (.alternative reading.chosen) reading.children

/-- With one sentence behind white space, a script has just this sentence. -/
theorem sentences_extend (step : Step ε κ) (blank : ∀ node ∈ step.nodes, node.isGap = true)
    (reading : TypeReading ε κ) {root : Node ε κ}
    (children : root.children = (step.extend reading).nodes) :
    root.sentences = [reading.sentence step.stop] := by
  have none {nodes : List (Node ε κ)} (blank : ∀ node ∈ nodes, node.isGap = true) :
      nodes.filter (fun node => !node.isGap) = [] :=
    List.filter_eq_nil_iff.mpr fun node member => by simp [blank node member]
  have behind : ∀ node ∈ (readGap (ε := ε) (κ := κ) reading.stop).2, node.isGap = true :=
    (readGap_derives rfl).isGap
  rw [Node.sentences, children, Step.extend, List.filter_append, none blank, List.nil_append,
    List.filter_cons_of_pos rfl, none behind]
  rfl

theorem advance_first (scope : Scope ε κ) (named : TypeReader ε κ) {step : Step ε κ}
    (separated : step.separated = true) (progress : Progress ε κ) :
    ∃ cut, (advance scope named true step).run progress =
      let read := (readAlternatives scope named scope.registry.sentences step.stop).run progress
      ((read.1.whole.map step.extend, cut), read.2) := by
  unfold advance
  extract_lets atEnd goOn stay
  rw [if_pos separated, if_neg (by simp)]
  exact ⟨_, rfl⟩

/-- Of the readings of a sentence, one that gets to the end of the text leads to a step there. -/
theorem exists_step_atEnd (step : Step ε κ) (inside : step.stop.In text.toList)
    (nonempty : step.stop.rest ≠ []) {readings : List (TypeReading ε κ)}
    (derived : ∀ reading ∈ readings,
      DerivesOneOf registry.alternatives config registry.sentences step.stop reading)
    {reading : TypeReading ε κ} (member : reading ∈ readings)
    (atEnd : (reading.stop.skipWhile isBlank).rest = []) :
    ∃ next ∈ keepNew (fun step => step.stop.offset) [step.stop.offset]
      (readings.map step.extend), next.stop.rest = [] := by
  have there {reading : TypeReading ε κ} (member : reading ∈ readings) :
      (step.extend reading).stop.In text.toList := by
    obtain ⟨_, passes⟩ := (derived reading member).2.passes
    exact inside_skipBlank (inside.passes passes)
  have new : (step.extend reading).stop.offset ∉ [step.stop.offset] := by
    intro same
    have still := (there member).eq_of_offset inside (List.mem_singleton.mp same)
    exact nonempty (still ▸ atEnd)
  obtain ⟨next, kept, same⟩ : ∃ next ∈ keepNew (fun step => step.stop.offset) [step.stop.offset]
      (readings.map step.extend), next.stop.offset = (step.extend reading).stop.offset :=
    exists_mem_keepNew (List.mem_map.mpr ⟨reading, member, rfl⟩) new
  refine ⟨next, kept, ?_⟩
  obtain ⟨other, listed, rfl⟩ := List.mem_map.mp ((keepNew_sublist _ _ _).subset kept)
  rw [(there listed).eq_of_offset (there member) same]
  exact atEnd

/-- A text that can be read as one sentence with white space around it is read as one. -/
theorem parse_single (acyclic : NoLeftRecursion registry.alternatives config text.toList)
    {reading : TypeReading ε κ} (derived : DerivesOneOf registry.alternatives config
      registry.sentences (firstPlace text) reading)
    (atEnd : (reading.stop.skipWhile isBlank).rest = []) (nonempty : (firstPlace text).rest ≠ []) :
    ∃ root found, parse registry config text = .ok root ∧
      DerivesOneOf registry.alternatives config registry.sentences (firstPlace text) found ∧
      (found.stop.skipWhile isBlank).rest = [] ∧
      root.sentences = [found.sentence (firstPlace text)] := by
  have inside : (firstPlace text).In text.toList := inside_skipBlank (Cursor.in_start _)
  let scope : Scope ε κ := parsing registry config
  let named : TypeReader ε κ := readType (levelsFor registry text.toList)
  let begin : Step ε κ := ⟨firstPlace text, (readGap (Cursor.ofText text)).2, true⟩
  let start : Progress ε κ := { failure := { place := Cursor.ofText text } }
  -- The first round reads all sentences at the first place.
  obtain ⟨⟨sound, complete⟩, -⟩ := readSentences_derives acyclic inside start
    (faithful_nil registry config text.toList)
  obtain ⟨cut, advanced⟩ := advance_first scope named (show begin.separated = true from rfl) start
  let read := (readAlternatives scope named registry.sentences (firstPlace text)).run start
  have round : ([begin].mapM (advance scope named true)).run start =
      ([(read.1.whole.map begin.extend, cut)], read.2) := by
    rw [List.mapM_cons, run_bind, advanced]
    rfl
  let next := keepNew (fun step => step.stop.offset) [(firstPlace text).offset]
    ([(read.1.whole.map begin.extend, cut)].flatMap Prod.fst)
  have steps : next = keepNew (fun step => step.stop.offset) [(firstPlace text).offset]
      (read.1.whole.map begin.extend) := by simp [next]
  -- The second round finds a script, since one of the steps has got to the end.
  let second := rounds scope named (Text.byteSize text.toList + 1) false
    (next.map (fun step => step.stop.offset) ++ [(firstPlace text).offset]) next
    ⟨none, [] ++ [(read.1.whole.map begin.extend, cut)].flatMap Prod.snd⟩
  have reaches : ∃ step ∈ next, step.stop.rest = [] := by
    obtain ⟨found, member, stops⟩ := complete reading derived
    rw [steps]
    exact exists_step_atEnd begin inside nonempty sound member (stops ▸ atEnd)
  obtain ⟨step, kept, ended, found⟩ : ∃ step ∈ next, step.stop.rest = [] ∧
      (second.run read.2).1.whole = some step.nodes := round_takes rfl rfl reaches
  rw [steps] at kept
  obtain ⟨final, listed, rfl⟩ := List.mem_map.mp ((keepNew_sublist _ _ _).subset kept)
  have script : (readScript scope (Cursor.ofText text)).run start = second.run read.2 := by
    change (rounds scope named (Text.byteSize text.toList + 1 + 1) true [(firstPlace text).offset]
      [begin] {}).run start = _
    exact round_next rfl (by simpa [begin] using nonempty) (by simp) (.inl rfl) round
  have whole : (searchText registry config false text).1.whole =
      some (begin.extend final).nodes := found ▸ congrArg (fun read => (Prod.fst read).whole) script
  refine ⟨.covering (Cursor.ofText text) (Cursor.ofText text).finish none .script
    (begin.extend final).nodes, final, ?_, sound final listed, ended,
    sentences_extend begin (readGap_derives rfl).isGap final rfl⟩
  rw [parse]
  simp only [whole]

/-- A text without white space around it is read as one sentence if it is made of words that fit the
parts of one. -/
theorem parse_fitting (acyclic : NoLeftRecursion registry.alternatives config text.toList)
    {chosen : Alternative ε κ} (member : chosen ∈ registry.sentences) {words : List (List Char)}
    (fit : List.Forall₂ (Fits registry.alternatives config) (chosen.pattern.items.map Item.part)
      words) (whole : text.toList = words.flatten)
    (first : ∃ c ∈ text.toList.head?, isBlank c = false)
    (last : ∃ c ∈ text.toList.getLast?, isBlank c = false) :
    ∃ root sentence, parse registry config text = .ok root ∧ root.sentences = [sentence] ∧
      ShowsSentence registry config sentence ∧
      sentence.children.flatMap (fun child => child.covered.toList) = text.toList := by
  obtain ⟨c, isFirst, visible⟩ := first
  have nonempty : text.toList ≠ [] := by
    rintro empty
    simp [empty] at isFirst
  have begins : firstPlace text = Cursor.ofText text := by
    obtain ⟨rest, characters⟩ := List.head?_eq_some_iff.mp isFirst
    simp [firstPlace, Cursor.skipWhile, Cursor.ofText, Cursor.past, characters, visible]
  have passes : (Cursor.ofText text).Passes words.flatten (Cursor.ofText text).finish :=
    whole ▸ Cursor.passes_finish (Cursor.ofText text)
  obtain ⟨nodes, derived⟩ := exists_derivesItems fit passes
  have derived : DerivesOneOf registry.alternatives config registry.sentences (firstPlace text)
      ⟨(Cursor.ofText text).finish, chosen, nodes⟩ := by
    rw [begins]
    exact ⟨member, derived⟩
  obtain ⟨root, found, parsed, read, atEnd, sentences⟩ :=
    parse_single acyclic derived rfl (begins ▸ nonempty)
  rw [begins] at read sentences
  have texts := read.2.passes_covered
  -- What was left behind the sentence would be white space at the end of the text.
  have ended : found.stop.rest = [] := by
    obtain ⟨c, isLast, visible⟩ := last
    by_contra left
    have behind : found.stop.rest.getLast? = some c := by
      rw [← isLast, show text.toList = _ from texts.rest_eq, List.getLast?_append_of_ne_nil _ left]
    have blank := List.dropWhile_eq_nil_iff.mp atEnd c (List.mem_of_getLast? behind)
    rw [blank] at visible
    cases visible
  refine ⟨root, _, parsed, sentences, ⟨found.chosen, read.1, rfl, read.2.shows⟩, ?_⟩
  change found.children.flatMap _ = (Cursor.ofText text).rest
  rw [texts.rest_eq, ended, List.append_nil]

end SentenceGrammar.Matching
