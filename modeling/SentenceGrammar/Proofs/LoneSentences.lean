import SentenceGrammar.Proofs.SentenceOrder

/-!
# Lone sentences

What the pattern of a sentence matches, when it is read on its own, need not be a script. White
space at the beginning of a text is taken before any sentence is read, so a sentence is only read
behind all of it, even if it could begin with white space itself. At its end a sentence may take
white space or leave it. And what is remembered of the types from other sentences must not be in the
way.

## Main result

`lone_sentence_accepted`: when a text that is a sentence is accepted.
-/
namespace SentenceGrammar.Matching

open Enumerate
open Text (isBlank)

variable {ε κ : Type} {registry : Registry ε κ} {config : Config} {text : String}
  {sentence : Alternative ε κ} {place stop : Cursor}

/-- Where the pattern of a sentence that is read on its own stops, from a place on. -/
def ownEnds (registry : Registry ε κ) (config : Config) (text : String)
    (sentence : Alternative ε κ) (place : Cursor) : List Cursor :=
  ((readAlternatives (parsing registry config) (readType (levelsFor registry text.toList))
    [sentence] place).run { failure := { place := .ofText text } }).1.whole.map TypeReading.stop

theorem mem_ownEnds_iff
    (noMutual : NoMutualLeftRecursion registry.alternatives config text.toList)
    (inside : place.In text.toList) : stop ∈ ownEnds registry config text sentence place ↔
      ∃ reading ∈ oneOf config (canonical registry config text.toList) [sentence] place,
        reading.stop = stop := by
  have ends : ownEnds registry config text sentence place =
      (firstTypeReadings (oneOf config (canonical registry config text.toList) [sentence]
        place)).map TypeReading.stop :=
    congrArg (List.map TypeReading.stop) (readListed_refines noMutual false [sentence] inside
      (Nat.le_refl _) _ (faithful_nil registry config text.toList)).1
  rw [ends]
  exact mem_stops_iff (oneOf_within inside [sentence])

/-- What was read before makes no difference to a sentence. -/
theorem ownEnds_subset
    (noMutual : NoMutualLeftRecursion registry.alternatives config text.toList)
    (inside : place.In text.toList) (member : sentence ∈ registry.sentences)
    (matched : stop ∈ ownEnds registry config text sentence place) :
    stop ∈ passEnds registry config text place := by
  obtain ⟨reading, listed, same⟩ := (mem_ownEnds_iff noMutual inside).mp matched
  refine (mem_passEnds_iff noMutual inside).mpr ⟨reading, ?_, same⟩
  -- The readings by several sentences include those by each of them.
  obtain ⟨chosen, among, read⟩ := List.mem_flatMap.mp listed
  obtain rfl := List.mem_singleton.mp among
  exact List.mem_flatMap.mpr ⟨chosen, member, read⟩

/-- Without left recursion, all that can be derived by the pattern is matched. -/
theorem mem_ownEnds_of_derives
    (acyclic : NoLeftRecursion registry.alternatives config text.toList)
    (inside : place.In text.toList) {nodes : List (Node ε κ)}
    (derived : DerivesItems registry.alternatives config sentence.pattern.items place stop nodes) :
    stop ∈ ownEnds registry config text sentence place := by
  refine (mem_ownEnds_iff (acyclic.noMutual _ _) inside).mpr ⟨⟨stop, sentence, nodes⟩, ?_, rfl⟩
  exact (mem_oneOf_canonical_iff acyclic [sentence] inside).mpr ⟨List.mem_singleton_self _, derived⟩

/-- Unless two types recur in each other at one place, a text is accepted if some sentence matches
it from behind the white space at its beginning to where only white space follows. So a text that
does not begin with white space is accepted if some sentence matches all of it; what can be derived
by the pattern is matched if no type recurs in itself at one place. -/
theorem lone_sentence_accepted
    (noMutual : NoMutualLeftRecursion registry.alternatives config text.toList)
    (member : sentence ∈ registry.sentences) :
    (∀ stop ∈ ownEnds registry config text sentence (firstPlace text),
      (stop.skipWhile isBlank).rest = [] → Accepts registry config text) ∧
    ((∀ c ∈ text.toList.head?, isBlank c = false) →
      (Cursor.ofText text).finish ∈ ownEnds registry config text sentence (.ofText text) →
        Accepts registry config text) ∧
    (NoLeftRecursion registry.alternatives config text.toList →
      ∀ nodes, DerivesItems registry.alternatives config sentence.pattern.items (.ofText text)
        (Cursor.ofText text).finish nodes →
          (Cursor.ofText text).finish ∈ ownEnds registry config text sentence (.ofText text)) := by
  have inside : (firstPlace text).In text.toList := inside_skipBlank (Cursor.in_start _)
  have behind : ∀ stop ∈ ownEnds registry config text sentence (firstPlace text),
      (stop.skipWhile isBlank).rest = [] → Accepts registry config text := by
    intro stop matched atEnd
    exact accepts_of_sentence (ownEnds_subset noMutual inside member matched) atEnd
  refine ⟨behind, fun visible matched => ?_, fun acyclic nodes derived => ?_⟩
  · have begins : firstPlace text = .ofText text := by
      cases characters : text.toList with
      | nil => simp [firstPlace, Cursor.skipWhile, Cursor.ofText, Cursor.past, characters]
      | cons c rest =>
        have shown : isBlank c = false := visible c (by simp [characters])
        simp [firstPlace, Cursor.skipWhile, Cursor.ofText, Cursor.past, characters, shown]
    rw [← begins] at matched
    exact behind _ matched rfl
  · exact mem_ownEnds_of_derives acyclic (Cursor.in_start _) derived

/-- The first sentence takes the blank behind it. -/
theorem lone_sentence_accepted_letters :
    NoMutualLeftRecursion letters.alternatives {} "a ".toList ∧
      ∃ sentence ∈ letters.sentences, sentence.pattern.items = [.literal "a " ⟨0, 0⟩] ∧
        (Cursor.ofText "a ").finish ∈ ownEnds letters {} "a " sentence (.ofText "a ") ∧
          Accepts letters {} "a " := by
  have noMutual : NoMutualLeftRecursion letters.alternatives {} "a ".toList := by
    refine noMutual_of_own (fun name chosen member => ?_) _
    cases member
  have matched : (Cursor.ofText "a ").finish ∈
      ownEnds letters {} "a " ⟨none, ⟨"", [.literal "a " ⟨0, 0⟩]⟩, none, none, false⟩
        (.ofText "a ") := by decide +kernel
  have visible : ∀ c ∈ "a ".toList.head?, isBlank c = false := by simp [isBlank]
  exact ⟨noMutual, _, List.mem_cons_self, rfl, matched,
    (lone_sentence_accepted noMutual List.mem_cons_self).2.1 visible matched⟩

/-- A sentence that begins with a blank. -/
def indented : Registry Empty Empty := .ofItems [] [[.literal " a" ⟨0, 0⟩]]

/-- The blank is no part of the sentence, but white space in front of it. And one of the sentences
of `crossed` is cut by what is remembered from the other one. -/
theorem lone_sentence_refused_indented :
    (∃ sentence ∈ indented.sentences,
      (Cursor.ofText " a").finish ∈ ownEnds indented {} " a" sentence (.ofText " a") ∧
        ¬Accepts indented {} " a") ∧
    ∃ sentence ∈ crossed.sentences,
      (Cursor.ofText "ay").finish ∈
          ownEnds crossed { severalSentences := false } "ay" sentence (.ofText "ay") ∧
        ¬Accepts crossed { severalSentences := false } "ay" := by
  constructor
  · exact ⟨_, List.mem_cons_self, by decide +kernel, by decide +kernel⟩
  · exact ⟨_, List.mem_cons_of_mem _ List.mem_cons_self, by decide +kernel, by decide +kernel⟩

end SentenceGrammar.Matching
