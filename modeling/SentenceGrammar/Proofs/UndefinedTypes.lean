import Mathlib.Data.Prod.Lex
import Mathlib.Order.WithBot
import SentenceGrammar.Proofs.RegistryContents
import SentenceGrammar.Proofs.SearchedGrammar

/-!
# Undefined types

Types are looked up when a text is read, so a pattern may refer to one that is not defined. Such
references are listed beforehand: all of them, in the order of the types and the sentences that they
stand in. If a type turns out to be undefined while some text is read, then it is on the list.

## Main result

`undefinedType_listed`: the list of references and the types that are reported as undefined.
-/
namespace SentenceGrammar

/-! ### Entries with keys -/

section

variable {α β ι ι' : Type}

/-- Entries with keys that have entries with keys of their own. -/
def nested (entries : List (ι × α)) (inner : α → List (ι' × β)) : List ((ι ×ₗ ι') × β) :=
  entries.flatMap fun entry => (inner entry.2).map fun below => (toLex (entry.1, below.1), below.2)

theorem mem_nested {entries : List (ι × α)} {inner : α → List (ι' × β)} {key : ι} {key' : ι'}
    {b : β} : (toLex (key, key'), b) ∈ nested entries inner ↔
      ∃ a, (key, a) ∈ entries ∧ (key', b) ∈ inner a := by
  simp [nested]

theorem values_nested (entries : List (ι × α)) (inner : α → List (ι' × β)) :
    (nested entries inner).map Prod.snd =
      (entries.map Prod.snd).flatMap fun a => (inner a).map Prod.snd := by
  simp [nested, List.map_flatMap, List.flatMap_map, Function.comp_def]

theorem ascending_nested [Preorder ι] [Preorder ι'] {entries : List (ι × α)}
    {inner : α → List (ι' × β)} (outer : (entries.map Prod.fst).Pairwise (· < ·))
    (each : ∀ a, ((inner a).map Prod.fst).Pairwise (· < ·)) :
    ((nested entries inner).map Prod.fst).Pairwise (· < ·) := by
  rw [nested, List.map_flatMap, List.pairwise_flatMap]
  constructor
  · intro entry _
    simpa [List.pairwise_map, Prod.Lex.toLex_lt_toLex] using List.pairwise_map.mp (each entry.2)
  · refine (List.pairwise_map.mp outer).imp fun less => ?_
    simp only [List.mem_map]
    rintro _ ⟨_, ⟨_, _, rfl⟩, rfl⟩ _ ⟨_, ⟨_, _, rfl⟩, rfl⟩
    exact Prod.Lex.toLex_lt_toLex.mpr (.inl less)

/-- The elements of a list with their numbers. -/
def numbered (list : List α) : List (Nat × α) := list.zipIdx.map Prod.swap

theorem mem_numbered {list : List α} {number : Nat} {a : α} :
    (number, a) ∈ numbered list ↔ list[number]? = some a := by
  simp [numbered, List.mk_mem_zipIdx_iff_getElem?]

theorem values_numbered (list : List α) : (numbered list).map Prod.snd = list := by
  simp [numbered, Function.comp_def]

theorem ascending_numbered (list : List α) : ((numbered list).map Prod.fst).Pairwise (· < ·) := by
  simpa [numbered, Function.comp_def] using List.pairwise_lt_range'

end

namespace Registry

variable {ε κ : Type} {registry : Registry ε κ}

/-! ### Places in a registry -/

/-- The place of an item: the type it belongs to, or else the sentences, which are above all types;
the number of its alternative among these; and its own number in the pattern. -/
abbrev Place := WithTop String ×ₗ Nat ×ₗ Nat

/-- The alternatives of a type, or the sentences. -/
def under (registry : Registry ε κ) : WithTop String → List (Alternative ε κ)
  | ⊤ => registry.sentences
  | (name : String) => registry.alternatives name

theorem under_type (registry : Registry ε κ) (name : String) :
    registry.under name = registry.alternatives name := rfl

/-- At the place is a placeholder whose type is not defined. -/
inductive Misses (registry : Registry ε κ) : Place → UndefinedReference → Prop where
  | placeholder {owner : WithTop String} {number position : Nat} {chosen : Alternative ε κ}
      {slot : Placeholder} {name : String}
      (alternative : (registry.under owner)[number]? = some chosen)
      (item : chosen.pattern.items[position]? = some (.placeholder slot))
      (target : slot.target = .named name) (undefined : registry.containsType name = false) :
      registry.Misses (toLex (owner, toLex (number, position)))
        ⟨name, slot.span, chosen.pattern.source⟩

/-- What calls make of an empty registry. -/
def ofCalls (calls : List (Call ε κ)) : Registry ε κ := ((Call.performAll calls).run {}).2

theorem sorted_ofCalls (calls : List (Call ε κ)) : (ofCalls calls).Sorted :=
  (empty_holds.performAll calls).sorted

/-- The references of all placeholders whose types are not defined, in the order of their places. -/
def ListsMissing (registry : Registry ε κ) (references : List UndefinedReference) : Prop :=
  ∃ listed : List (Place × UndefinedReference), listed.map Prod.snd = references ∧
    (listed.map Prod.fst).Pairwise (· < ·) ∧
      ∀ place reference, (place, reference) ∈ listed ↔ registry.Misses place reference

/-! ### The list of references -/

/-- The reference of an item of the given pattern, if its type is not defined. -/
def missing? (registry : Registry ε κ) (source : String) : Item → Option UndefinedReference
  | .literal .. => none
  | .placeholder slot =>
    match slot.target with
    | .named type =>
      if registry.containsType type then none else some ⟨type, slot.span, source⟩
    | .builtin _ | .charClass _ => none

theorem missing?_eq_some {source : String} {item : Item} {reference : UndefinedReference} :
    registry.missing? source item = some reference ↔ ∃ slot name, item = .placeholder slot ∧
      slot.target = .named name ∧ registry.containsType name = false ∧
        reference = ⟨name, slot.span, source⟩ := by
  cases item with
  | literal => simp [missing?]
  | placeholder slot =>
    cases target : slot.target <;> simp [missing?, target, @eq_comm _ reference]

/-- The missing references of an alternative with the numbers of their items. -/
def missingIn (registry : Registry ε κ) (chosen : Alternative ε κ) :
    List (Nat × UndefinedReference) :=
  (numbered chosen.pattern.items).filterMap fun item =>
    (registry.missing? chosen.pattern.source item.2).map (item.1, ·)

theorem mem_missingIn {chosen : Alternative ε κ} {position : Nat}
    {reference : UndefinedReference} : (position, reference) ∈ registry.missingIn chosen ↔
      ∃ item, chosen.pattern.items[position]? = some item ∧
        registry.missing? chosen.pattern.source item = some reference := by
  simp [missingIn, mem_numbered]

theorem values_missingIn (registry : Registry ε κ) (chosen : Alternative ε κ) :
    (registry.missingIn chosen).map Prod.snd =
      chosen.pattern.items.filterMap (registry.missing? chosen.pattern.source) := by
  rw [missingIn, List.map_filterMap]
  conv_rhs => rw [← values_numbered chosen.pattern.items, List.filterMap_map]
  simp [Function.comp_def]

theorem ascending_missingIn (registry : Registry ε κ) (chosen : Alternative ε κ) :
    ((registry.missingIn chosen).map Prod.fst).Pairwise (· < ·) := by
  have numbers := List.pairwise_map.mp (ascending_numbered chosen.pattern.items)
  rw [missingIn, List.pairwise_map, List.pairwise_filterMap]
  refine numbers.imp fun less => ?_
  simp only [Option.map_eq_some_iff]
  rintro _ ⟨_, _, rfl⟩ _ ⟨_, _, rfl⟩
  exact less

/-- All alternatives under their types, and the sentences behind them. -/
def owners (registry : Registry ε κ) : List (WithTop String × List (Alternative ε κ)) :=
  registry.types.map (fun entry => ((entry.name : WithTop String), entry.alternatives)) ++
    [(⊤, registry.sentences)]

theorem ascending_owners (sorted : registry.Sorted) :
    (registry.owners.map Prod.fst).Pairwise (· < ·) := by
  rw [owners, List.map_append, List.pairwise_append]
  refine ⟨?_, List.pairwise_singleton _ _, ?_⟩
  · exact List.pairwise_map.mpr (List.pairwise_map.mpr (sorted.imp WithTop.coe_lt_coe.mpr))
  · simp

/-- In a sorted registry each entry is found under its name. -/
theorem alternatives_entry (sorted : registry.Sorted) {entry : TypeEntry ε κ}
    (member : entry ∈ registry.types) : registry.alternatives entry.name = entry.alternatives := by
  obtain ⟨front, back, split⟩ := List.append_of_mem member
  have before : ∀ other ∈ front, ¬(decide (other.name = entry.name) = true) := by
    rw [Sorted, split, List.pairwise_append] at sorted
    intro other listed
    simpa using (sorted.2.2 other listed entry List.mem_cons_self).ne
  have found : registry.entry? entry.name = some entry := by
    unfold entry?
    rw [split, List.find?_append, List.find?_eq_none.mpr before]
    simp
  rw [alternatives, found]

theorem mem_owners (sorted : registry.Sorted) {owner : WithTop String} {number : Nat}
    {chosen : Alternative ε κ} :
    (∃ alternatives, (owner, alternatives) ∈ registry.owners ∧
      alternatives[number]? = some chosen) ↔
        (registry.under owner)[number]? = some chosen := by
  cases owner with
  | top => simp [owners, under]
  | coe name =>
    constructor
    · rintro ⟨alternatives, member, listed⟩
      obtain ⟨entry, here, rfl, rfl⟩ : ∃ entry ∈ registry.types, entry.name = name ∧
          entry.alternatives = alternatives := by simpa [owners] using member
      rwa [under_type, alternatives_entry sorted here]
    · -- A type that is not defined has no alternatives that could be listed.
      intro listed
      rw [under_type, alternatives] at listed
      split at listed
      next entry found =>
        have same : entry.name = name := by simpa using List.find?_some found
        refine ⟨entry.alternatives, ?_, listed⟩
        simpa [owners] using ⟨entry, List.mem_of_find?_eq_some found, same, rfl⟩
      next => simp at listed

theorem undefinedReferences_eq (registry : Registry ε κ) : registry.undefinedReferences =
    registry.allAlternatives.flatMap fun chosen =>
      chosen.pattern.items.filterMap (registry.missing? chosen.pattern.source) := by
  rw [undefinedReferences]
  congr 1
  funext chosen
  rw [Pattern.placeholders, List.filterMap_filterMap]
  congr 1
  funext item
  cases item <;> rfl

/-- The list of undefined references has each of them once, in the order of their places. -/
theorem listsMissing (sorted : registry.Sorted) :
    registry.ListsMissing registry.undefinedReferences := by
  refine ⟨nested registry.owners fun alternatives => nested (numbered alternatives)
    registry.missingIn, ?values, ?ascending, fun place reference => ?members⟩
  case values =>
    simp only [values_nested, values_numbered, values_missingIn, undefinedReferences_eq]
    simp [owners, allAlternatives, List.flatMap_map, List.flatMap_assoc, Function.comp_def]
  case ascending =>
    exact ascending_nested (ascending_owners sorted) fun alternatives =>
      ascending_nested (ascending_numbered alternatives) registry.ascending_missingIn
  case members =>
    obtain ⟨owner, number, position⟩ := place
    refine mem_nested.trans ⟨?_, ?_⟩
    · rintro ⟨alternatives, member, below⟩
      obtain ⟨chosen, listed, missing⟩ := mem_nested.mp below
      obtain ⟨item, here, reference⟩ := mem_missingIn.mp missing
      obtain ⟨slot, name, rfl, target, undefined, rfl⟩ := missing?_eq_some.mp reference
      exact .placeholder ((mem_owners sorted).mp ⟨alternatives, member, mem_numbered.mp listed⟩)
        here target undefined
    · rintro ⟨alternative, item, target, undefined⟩
      obtain ⟨alternatives, member, listed⟩ := (mem_owners sorted).mpr alternative
      exact ⟨alternatives, member, mem_nested.mpr ⟨_, mem_numbered.mpr listed,
        mem_missingIn.mpr ⟨_, item, missing?_eq_some.mpr ⟨_, _, rfl, target, undefined, rfl⟩⟩⟩⟩

end Registry

namespace Parser

open Matching (scriptRun)

variable {ε κ σ : Type}

variable (registry : Registry ε κ) (config : Config) (surroundings : σ) in
/-- Reading the text, or completing it at some cursor, fails in the given way. -/
inductive Fails (text : String) (failure : NoMatch) : Prop where
  | parse (failed : outcome (parse text) registry config surroundings = .error (.noMatch failure))
  | parseUnfinished {cursor : Nat} (failed : outcome (parseUnfinished text cursor) registry config
      surroundings = .error (.noMatch failure))

variable {registry : Registry ε κ} {config : Config} {surroundings : σ}

theorem Fails.expected {text : String} {failure : NoMatch}
    (fails : Fails registry config surroundings text failure) :
    ∃ completing front, failure.expected =
      (scriptRun registry config completing front).2.failure.expected := by
  cases fails with
  | parse failed =>
    rw [outcome_parse, Matching.parse_eq] at failed
    split at failed
    · cases failed
    · obtain rfl := ParseError.noMatch.inj (Except.error.inj failed)
      exact ⟨false, _, rfl⟩
  | parseUnfinished failed =>
    rw [outcome_parseUnfinished, Matching.unfinished_eq] at failed
    split at failed
    · obtain rfl := ParseError.noMatch.inj (Except.error.inj failed)
      exact ⟨true, _, rfl⟩
    · cases failed

/-- Every type that is reported as undefined, on any text, is on the list of undefined references.
If this is empty, then no type is ever reported. In a registry that keeps its types in the order of
their names, as all calls do, the list has every reference in order, once for each occurrence. -/
theorem undefinedType_listed (registry : Registry ε κ) (config : Config) (surroundings : σ) :
    (∀ text failure, Fails registry config surroundings text failure →
      ∀ name, .undefinedType name ∈ failure.expected →
        ∃ reference ∈ registry.undefinedReferences, reference.name = name) ∧
      (registry.undefinedReferences = [] → ∀ text failure,
        Fails registry config surroundings text failure →
          ∀ name, .undefinedType name ∉ failure.expected) ∧
        (registry.Sorted → registry.ListsMissing registry.undefinedReferences) := by
  have lacks text failure (fails : Fails registry config surroundings text failure) name
      (reported : .undefinedType name ∈ failure.expected) : registry.Lacks name := by
    obtain ⟨completing, front, same⟩ := fails.expected
    exact (Matching.scriptRun_meets registry config completing front).2 name (same ▸ reported)
  refine ⟨lacks, fun defined text failure fails name reported => ?_, Registry.listsMissing⟩
  obtain ⟨reference, listed, -⟩ := lacks text failure fails name reported
  simp [defined] at listed

/-- Two types, not defined in the order of their names, and a sentence in between. -/
def lacking : Registry Empty Empty :=
  .ofCalls [.define { name := some "shape", pattern := "{a:edge} by {b:edge}" },
    .define { name := none, pattern := "put {x:shape}{y:place}{z:way}" },
    .define { name := some "place", pattern := " at {w:spot}" }]

/-- A sentence that begins in the same way and refers to a built-in type. -/
def lackingNothing : Registry Empty Empty :=
  .ofCalls [.define { name := none, pattern := "put {x:int}" }]

/-- Both fail on one text, where a type is reported by the first of them only. -/
theorem undefinedType_listed_lacking :
    (lacking.Sorted ∧
      lacking.undefinedReferences.map UndefinedReference.name = ["spot", "edge", "edge", "way"] ∧
        lacking.ListsMissing lacking.undefinedReferences ∧
          ∃ failure, Fails lacking {} () "put it" failure ∧
            .undefinedType "edge" ∈ failure.expected ∧
              ∃ reference ∈ lacking.undefinedReferences, reference.name = "edge") ∧
      lackingNothing.undefinedReferences = [] ∧
        ∃ failure, Fails lackingNothing {} () "put it" failure ∧
          ∀ name, .undefinedType name ∉ failure.expected := by
  obtain ⟨reported, -, listed⟩ := undefinedType_listed lacking {} ()
  obtain ⟨-, never, -⟩ := undefinedType_listed lackingNothing {} ()
  have sorted : lacking.Sorted := Registry.sorted_ofCalls _
  have defined : lackingNothing.undefinedReferences = [] := by decide +kernel
  obtain ⟨failure, failed, edge⟩ := exists_failure (outcome (parse "put it") lacking {} ())
    (fun failure => .undefinedType "edge" ∈ failure.expected) (by decide +kernel)
  obtain ⟨failure', failed', -⟩ := exists_failure (outcome (parse "put it") lackingNothing {} ())
    (fun failure => failure.position = 4) (by decide +kernel)
  have known := of_decide_eq_true edge
  exact ⟨⟨sorted, by decide +kernel, listed sorted, failure, .parse failed, known,
    reported _ failure (.parse failed) "edge" known⟩, defined, failure', .parse failed',
      never defined _ failure' (.parse failed')⟩

end Parser
end SentenceGrammar
