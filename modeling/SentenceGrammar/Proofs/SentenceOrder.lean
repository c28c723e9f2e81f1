import SentenceGrammar.Proofs.Refinement
import SentenceGrammar.Proofs.ScriptAcceptance

/-!
# The order of the sentences

If only one sentence is allowed, a text is accepted just if one of the sentences reads it to its
end. What a sentence reads there may depend on what was remembered of the types before, and so on
the other sentences. But unless two types recur in each other at one place, what is remembered of
a type is always the same, and then the order of the sentences does not matter.
-/
namespace SentenceGrammar.Matching

open Enumerate
open Text (isBlank)

variable {ε κ : Type} {config : Config} {text : String} {place stop : Cursor}

section

variable {registry : Registry ε κ}

/-- A sentence that only white space surrounds is a script, however many may follow. -/
theorem accepts_of_sentence (sentence : stop ∈ passEnds registry config text (firstPlace text))
    (atEnd : (stop.skipWhile isBlank).rest = []) : Accepts registry config text := by
  have start : (firstPlace text, true) ∈
      visitsAfter (passEnds registry config text) (firstPlace text) 0 := List.mem_singleton.mpr rfl
  have inside : (firstPlace text).In text.toList := inside_skipBlank (Cursor.in_start _)
  obtain ⟨count, bound, separated, visited⟩ :=
    visit_behind passEnds_inside inside (firstPlace_settled text) start sentence
  exact accepts_iff_visit.mpr ⟨count, fun _ => bound, _, visited, atEnd⟩

/-- With one sentence allowed, either nothing but white space is accepted or one sentence that only
white space follows. -/
theorem accepts_iff_sentence (single : config.severalSentences = false) :
    Accepts registry config text ↔ (firstPlace text).rest = [] ∨
      ∃ stop ∈ passEnds registry config text (firstPlace text),
        (stop.skipWhile isBlank).rest = [] := by
  rw [accepts_iff_visit]
  constructor
  · rintro ⟨count, bound, visit, member, atEnd⟩
    cases count with
    | zero =>
      obtain rfl := List.mem_singleton.mp member
      exact .inl atEnd
    | succ count =>
      obtain rfl := Nat.le_zero.mp (Nat.le_of_succ_le_succ (bound single))
      obtain ⟨-, place, before, stop, sentence, rfl⟩ := mem_visitsAfter_succ member
      obtain rfl := (Prod.mk.inj (List.mem_singleton.mp before)).1
      exact .inr ⟨stop, sentence, atEnd⟩
  · rintro (atEnd | ⟨stop, sentence, atEnd⟩)
    · exact ⟨0, fun _ => Nat.zero_le 1, _, List.mem_singleton.mpr rfl, atEnd⟩
    · exact accepts_iff_visit.mp (accepts_of_sentence sentence atEnd)

/-- What is remembered at the end of the pass are the readings that all ways of reading agree on. -/
theorem passEnd_faithful
    (noMutual : NoMutualLeftRecursion registry.alternatives config text.toList) :
    Faithful registry config text.toList [] (passEnd registry config text).known :=
  (readScript_faithful noMutual false _ (faithful_nil registry config text.toList)).2

/-- Of all readings, the first for each place are enough to tell where they stop. -/
theorem mem_stops_iff {readings : List (TypeReading ε κ)}
    (within : ∀ reading ∈ readings, reading.stop.In text.toList) :
    stop ∈ (firstTypeReadings readings).map TypeReading.stop ↔
      ∃ reading ∈ readings, reading.stop = stop := by
  rw [List.mem_map]
  constructor
  · rintro ⟨reading, kept, same⟩
    exact ⟨reading, (keepNew_sublist _ _ _).subset kept, same⟩
  · rintro ⟨reading, member, rfl⟩
    obtain ⟨kept, found, same⟩ := exists_mem_keepNew member List.not_mem_nil
    have listed := (keepNew_sublist _ _ _).subset found
    exact ⟨kept, found, (within kept listed).eq_of_offset (within reading member) same⟩

theorem oneOf_within (inside : place.In text.toList) (alternatives : List (Alternative ε κ)) :
    ∀ reading ∈ oneOf config (canonical registry config text.toList) alternatives place,
      reading.stop.In text.toList := by
  intro reading member
  obtain ⟨_, passes⟩ := (derives_of_mem_oneOf (canonical_sound _ _ _) member).2.passes
  exact inside.passes passes

/-- What is remembered at the end of the pass tells where sentences end. -/
theorem passEnds_eq (noMutual : NoMutualLeftRecursion registry.alternatives config text.toList)
    (inside : place.In text.toList) : passEnds registry config text place =
      (firstTypeReadings (oneOf config (canonical registry config text.toList) registry.sentences
        place)).map TypeReading.stop :=
  congrArg (List.map TypeReading.stop) (readSentences_refines noMutual false inside
    (Nat.le_refl _) _ (passEnd_faithful noMutual)).1

theorem mem_passEnds_iff
    (noMutual : NoMutualLeftRecursion registry.alternatives config text.toList)
    (inside : place.In text.toList) : stop ∈ passEnds registry config text place ↔
      ∃ reading ∈ oneOf config (canonical registry config text.toList) registry.sentences place,
        reading.stop = stop := by
  rw [passEnds_eq noMutual inside]
  exact mem_stops_iff (oneOf_within inside registry.sentences)

end

/-- Two registries with the same types read the types in the same way. -/
theorem canonical_types {first second : Registry ε κ} (types : first.types = second.types) :
    canonical first config text.toList = canonical second config text.toList := by
  obtain ⟨_, _⟩ := first
  obtain ⟨_, _⟩ := second
  obtain rfl := types
  rfl

theorem alternatives_types {first second : Registry ε κ} (types : first.types = second.types) :
    first.alternatives = second.alternatives := by
  funext name
  rw [Registry.alternatives, Registry.alternatives, Registry.entry?, Registry.entry?, types]

/-- Unless two types recur in each other at one place, the order in which the sentences are defined
does not matter for whether a text is accepted as one sentence. -/
theorem accepts_sentences_perm {first second : Registry ε κ} (types : first.types = second.types)
    (sentences : first.sentences.Perm second.sentences)
    (single : config.severalSentences = false)
    (noMutual : NoMutualLeftRecursion first.alternatives config text.toList) :
    Accepts first config text ↔ Accepts second config text := by
  have inside : (firstPlace text).In text.toList := inside_skipBlank (Cursor.in_start _)
  have noMutual' : NoMutualLeftRecursion second.alternatives config text.toList :=
    alternatives_types types ▸ noMutual
  -- The readings are the same up to their order, and only where they stop matters.
  have ends stop : stop ∈ passEnds first config text (firstPlace text) ↔
      stop ∈ passEnds second config text (firstPlace text) := by
    rw [mem_passEnds_iff noMutual inside, mem_passEnds_iff noMutual' inside, canonical_types types]
    have readings : (oneOf config (canonical second config text.toList) first.sentences
        (firstPlace text)).Perm (oneOf config (canonical second config text.toList)
          second.sentences (firstPlace text)) := sentences.flatMap_right _
    simp only [readings.mem_iff]
  rw [accepts_iff_sentence single, accepts_iff_sentence single]
  simp only [ends]

/-- Words that may be loud, or loud and in question. -/
def calls : Registry Empty Empty :=
  { loudWords with
    sentences := (Registry.ofItems [] [[.type "word"],
      [.type "word", .literal "?" ⟨0, 0⟩]]).sentences }

theorem calls_own (name : String) : ∀ chosen ∈ calls.alternatives name, ∀ slot inner,
    Item.placeholder slot ∈ chosen.pattern.items → slot.target = .named inner → inner = name := by
  intro chosen member slot inner placeholder target
  obtain ⟨entry, listed, rfl, known⟩ := Registry.mem_ofItems member
  obtain rfl := List.mem_singleton.mp listed
  rcases List.mem_cons.mp known with recurs | letters
  · simp only [recurs, Item.type, List.mem_cons, Item.placeholder.injEq, reduceCtorEq,
      List.not_mem_nil, or_false] at placeholder
    subst placeholder
    exact (Target.named.inj target).symm
  · simp only [List.mem_singleton.mp letters, List.mem_singleton, Item.placeholder.injEq]
      at placeholder
    subst placeholder
    cases target

theorem accepts_sentences_perm_calls :
    calls.sentences.reverse.Perm calls.sentences ∧
      NoMutualLeftRecursion calls.alternatives { severalSentences := false } "ab!?".toList ∧
        (Accepts { calls with sentences := calls.sentences.reverse } { severalSentences := false }
            "ab!?" ↔ Accepts calls { severalSentences := false } "ab!?") :=
  have noMutual := noMutual_of_own calls_own _
  ⟨List.reverse_perm _, noMutual,
    accepts_sentences_perm rfl (List.reverse_perm _) rfl noMutual⟩

/-- Two types that begin with each other. -/
def crossed : Registry Empty Empty :=
  .ofItems [("p", [[.type "q", .literal "x" ⟨0, 0⟩], [.literal "a" ⟨0, 0⟩]]),
    ("q", [[.type "p", .literal "y" ⟨0, 0⟩], [.literal "b" ⟨0, 0⟩]])] [[.type "p"], [.type "q"]]

/-- What is remembered of the second type was read within the first one, where it is cut. -/
theorem order_matters_crossed :
    ¬Accepts crossed { severalSentences := false } "ay" ∧
      Accepts { crossed with sentences := crossed.sentences.reverse } { severalSentences := false }
        "ay" := by
  constructor <;> decide +kernel

end SentenceGrammar.Matching
