import SentenceGrammar.Proofs.Fronts
import SentenceGrammar.Proofs.SentenceOrder
import SentenceGrammar.Proofs.Substance

/-!
# Wider quantifiers

A quantifier that allows more counts than another one is wider. Wider quantifiers take away none of
the readings of a grammar, but for one case: a repetition does not count units that do not move on,
whereas a placeholder that occurs exactly once may stand for an empty text. With wider quantifiers
types may also come to recur in each other, and a place behind a sentence may come to be reached
without white space. Where none of this happens, all texts that were accepted still are.

## Main results

- `accepts_widened`: wider quantifiers lose no text.
- `widening_loses_text`: but each of the three cases may.
-/
namespace SentenceGrammar

/-! ### Wider grammars -/

/-- The other quantifier allows the same counts, and perhaps smaller and greater ones. -/
structure Quantifier.WidensTo (narrow wide : Quantifier) : Prop where
  least : wide.least ≤ narrow.least
  most : ∀ most ∈ wide.most, ∃ fewer ∈ narrow.most, fewer ≤ most

namespace Quantifier

variable {narrow wide : Quantifier} {count : Nat}

instance : Decidable (narrow.WidensTo wide) :=
  decidable_of_iff (wide.least ≤ narrow.least ∧ ∀ most ∈ wide.most, ∃ fewer ∈ narrow.most,
    fewer ≤ most) ⟨fun ⟨least, most⟩ => ⟨least, most⟩, fun widens => ⟨widens.least, widens.most⟩⟩

example : one.WidensTo oneOrMore := by decide
example : optional.WidensTo zeroOrMore := by decide
example : WidensTo ⟨2, some 2⟩ ⟨1, some 3⟩ := by decide

theorem WidensTo.allowsMore (widens : narrow.WidensTo wide)
    (more : narrow.allowsMore count = true) : wide.allowsMore count = true := by
  cases bound : wide.most with
  | none => simp [Quantifier.allowsMore, bound]
  | some most =>
    obtain ⟨fewer, least, below⟩ := widens.most most bound
    simp only [Quantifier.allowsMore, bound, Option.mem_def.mp least, decide_eq_true_eq] at more ⊢
    omega

theorem WidensTo.admits (widens : narrow.WidensTo wide) (admitted : narrow.admits count = true) :
    wide.admits count = true := by
  have least := widens.least
  cases bound : wide.most with
  | none =>
    simp only [Quantifier.admits, bound, Option.all_none, Bool.and_true, Bool.and_eq_true,
      decide_eq_true_eq] at admitted ⊢
    omega
  | some most =>
    obtain ⟨fewer, known, below⟩ := widens.most most bound
    simp only [Quantifier.admits, bound, Option.mem_def.mp known, Option.all_some,
      Bool.and_eq_true, decide_eq_true_eq] at admitted ⊢
    omega

/-- What is as narrow as exactly one is exactly one, or allows no count at all. -/
theorem WidensTo.eq_one (widens : narrow.WidensTo one) (admitted : narrow.admits count = true) :
    narrow = one := by
  obtain ⟨fewer, known, below⟩ := widens.most 1 rfl
  have least : 1 ≤ narrow.least := widens.least
  simp only [Quantifier.admits, Option.mem_def.mp known, Option.all_some, Bool.and_eq_true,
    decide_eq_true_eq] at admitted
  obtain ⟨low, most⟩ := narrow
  obtain rfl : most = some fewer := known
  simp only at admitted least
  have exact : low = 1 ∧ fewer = 1 := by omega
  rw [exact.1, exact.2]
  rfl

end Quantifier

/-- The same item with a wider quantifier. A placeholder that occurs exactly once may only be made
to repeat, at least once, if it is one of the given ones. Where the items stand does not matter. -/
inductive Item.WidensTo (repeatable : Placeholder → Prop) : Item → Item → Prop where
  | literal (text : String) (span span' : Span) :
      Item.WidensTo repeatable (.literal text span) (.literal text span')
  | placeholder {slot wider : Placeholder} (target : wider.target = slot.target)
      (quantifier : slot.quantifier.WidensTo wider.quantifier)
      (repeated : slot.quantifier = .one →
        wider.quantifier = .one ∨ wider.quantifier.least = 0 ∨ repeatable slot) :
      Item.WidensTo repeatable (.placeholder slot) (.placeholder wider)

/-- The item is a literal that is not empty. -/
def Item.HasText : Item → Prop
  | .literal text _ => text ≠ ""
  | .placeholder _ => False

instance : DecidablePred Item.HasText
  | .literal text _ => inferInstanceAs (Decidable (text ≠ ""))
  | .placeholder _ => isFalse id

variable {ε κ : Type}

/-- The same items with wider quantifiers. -/
def Alternative.WidensTo (repeatable : Placeholder → Prop) (chosen wider : Alternative ε κ) :
    Prop :=
  List.Forall₂ (Item.WidensTo repeatable) chosen.pattern.items wider.pattern.items

/-- The same types and sentences with wider quantifiers. -/
structure Registry.WidensTo (repeatable : Placeholder → Prop) (registry wider : Registry ε κ) :
    Prop where
  types : List.Forall₂ (fun entry other => other.name = entry.name ∧
    List.Forall₂ (Alternative.WidensTo repeatable) entry.alternatives other.alternatives)
      registry.types wider.types
  sentences : List.Forall₂ (Alternative.WidensTo repeatable) registry.sentences wider.sentences

section

variable {repeatable repeatable' : Placeholder → Prop} {registry wider : Registry ε κ}

theorem Item.WidensTo.imp (more : ∀ slot, repeatable slot → repeatable' slot) {item other : Item}
    (widens : item.WidensTo repeatable other) : item.WidensTo repeatable' other := by
  cases widens with
  | literal text span span' => exact .literal text span span'
  | @placeholder slot wider target quantifier repeated =>
    apply Item.WidensTo.placeholder target quantifier
    intro one
    exact (repeated one).imp_right (.imp_right (more slot))

theorem Registry.WidensTo.imp (more : ∀ slot, repeatable slot → repeatable' slot)
    (widens : registry.WidensTo repeatable wider) : registry.WidensTo repeatable' wider where
  types := widens.types.imp fun _ _ entry => ⟨entry.1, entry.2.imp fun _ _ items =>
    List.Forall₂.imp (fun _ _ => Item.WidensTo.imp more) items⟩
  sentences := widens.sentences.imp fun _ _ items =>
    List.Forall₂.imp (fun _ _ => Item.WidensTo.imp more) items

instance [DecidablePred repeatable] : DecidableRel (Item.WidensTo repeatable)
  | .literal text span, .literal text' span' =>
    decidable_of_iff (text = text') ⟨fun same => same ▸ .literal text span span',
      fun | .literal _ _ _ => rfl⟩
  | .placeholder slot, .placeholder wider =>
    decidable_of_iff (wider.target = slot.target ∧ slot.quantifier.WidensTo wider.quantifier ∧
      (slot.quantifier = .one →
        wider.quantifier = .one ∨ wider.quantifier.least = 0 ∨ repeatable slot))
      ⟨fun ⟨target, quantifier, repeated⟩ => .placeholder target quantifier repeated,
        fun | .placeholder target quantifier repeated => ⟨target, quantifier, repeated⟩⟩
  | .literal _ _, .placeholder _ => isFalse nofun
  | .placeholder _, .literal _ _ => isFalse nofun

instance [DecidablePred repeatable] (chosen wider : Alternative ε κ) :
    Decidable (chosen.WidensTo repeatable wider) :=
  inferInstanceAs (Decidable (List.Forall₂ (Item.WidensTo repeatable)
    chosen.pattern.items wider.pattern.items))

instance [DecidablePred repeatable] : Decidable (registry.WidensTo repeatable wider) :=
  decidable_of_iff (List.Forall₂ (fun entry other => other.name = entry.name ∧
    List.Forall₂ (Alternative.WidensTo repeatable) entry.alternatives other.alternatives)
      registry.types wider.types ∧
    List.Forall₂ (Alternative.WidensTo repeatable) registry.sentences wider.sentences)
    ⟨fun ⟨types, sentences⟩ => ⟨types, sentences⟩, fun widens => ⟨widens.types, widens.sentences⟩⟩

theorem Registry.WidensTo.alternatives
    (widens : registry.WidensTo repeatable wider) (name : String) :
    List.Forall₂ (Alternative.WidensTo repeatable) (registry.alternatives name)
      (wider.alternatives name) := by
  have types := widens.types
  rw [Registry.alternatives, Registry.alternatives, Registry.entry?, Registry.entry?]
  generalize registry.types = entries at types ⊢
  generalize wider.types = others at types ⊢
  induction types with
  | nil => exact .nil
  | @cons entry other _ _ first _ ih =>
    obtain ⟨same, alternatives⟩ := first
    by_cases wanted : entry.name = name
    · simpa [same, wanted] using alternatives
    · simpa [same, wanted] using ih

end

namespace Matching

open Enumerate
open Text (isBlank)

variable {rules rules' : String → List (Alternative ε κ)} {config : Config} {text : List Char}
  {ask ask' : String → Cursor → List (TypeReading ε κ)} {slot wider : Placeholder}
  {start : Cursor}

/-- No occurrence of the placeholder in the text is empty. -/
def NeverEmpty (rules : String → List (Alternative ε κ)) (config : Config) (text : List Char)
    (slot : Placeholder) : Prop :=
  ∀ start stop node, start.In text → DerivesUnit rules config slot start stop node →
    stop.offset ≠ start.offset

/-- Numbers are never empty, so this is about registered types. -/
theorem neverEmpty_of_number {type : Builtin} (target : slot.target = .builtin type) :
    NeverEmpty rules config text slot := by
  intro start stop node _ unit
  cases unit with
  | @number _ type _ _ _ _ numeral passes =>
    rw [ne_eq, ← passes.word_eq_nil_iff]
    rintro rfl
    have accepted := Numeral.accepts_iff.mpr numeral
    cases type <;> cases accepted
  | type named => cases target.symm.trans named

theorem DerivesItem.moves {item : Item} {stop : Cursor} {node : Node ε κ}
    (derived : DerivesItem rules config item start stop node) (some : item.HasText) :
    start.offset < stop.offset := by
  cases item with
  | placeholder slot => exact some.elim
  | literal text span =>
    obtain ⟨passes⟩ := derived
    have moved : stop.offset ≠ start.offset := by
      rw [ne_eq, ← passes.word_eq_nil_iff, String.toList_eq_nil_iff]
      exact some
    exact Nat.lt_of_le_of_ne passes.offset_le moved.symm

/-- What contains a literal that is not empty moves on. -/
theorem DerivesItems.moves {items : List Item} {stop : Cursor} {nodes : List (Node ε κ)}
    (derived : DerivesItems rules config items start stop nodes)
    (some : ∃ item ∈ items, item.HasText) : start.offset < stop.offset := by
  obtain ⟨item, member, text⟩ := some
  induction items generalizing start nodes with
  | nil => cases member
  | cons first rest ih =>
    cases derived with
    | cons read others =>
      obtain ⟨_, passes⟩ := read.passes
      obtain ⟨_, further⟩ := others.passes
      rcases List.mem_cons.mp member with rfl | later
      · exact (read.moves text).trans_le further.offset_le
      · exact passes.offset_le.trans_lt (ih others later)

theorem DerivesUnit.moves {name : String} {stop : Cursor} {node : Node ε κ}
    (target : slot.target = .named name)
    (some : ∀ chosen ∈ rules name, ∃ item ∈ chosen.pattern.items, item.HasText)
    (unit : DerivesUnit rules config slot start stop node) : start.offset < stop.offset := by
  cases unit with
  | number builtin => cases target.symm.trans builtin
  | type named member items passes =>
    obtain rfl := Target.named.inj (target.symm.trans named)
    exact items.moves (some _ member)

/-- Nor are types whose alternatives all contain a literal. -/
theorem neverEmpty_of_literal {name : String} (target : slot.target = .named name)
    (some : ∀ chosen ∈ rules name, ∃ item ∈ chosen.pattern.items, item.HasText) :
    NeverEmpty rules config text slot :=
  fun _ _ _ _ unit => (unit.moves target some).ne'

/-! ### Where readings stop -/

/-- Wherever types stop that are read in the one way, they stop when read in the other. -/
def Follows (text : List Char) (ask ask' : String → Cursor → List (TypeReading ε κ)) : Prop :=
  ∀ name (place : Cursor), place.In text →
    (ask name place).map TypeReading.stop ⊆ (ask' name place).map TypeReading.stop

theorem unit_follows (follows : Follows text ask ask') (target : wider.target = slot.target)
    (inside : start.In text) :
    (unit ask slot start).map Reading.stop ⊆ (unit ask' wider start).map Reading.stop := by
  rw [unit, unit, target]
  split
  · rw [stops_words, stops_words]
    exact List.Subset.refl _
  · simp only [List.map_map, Function.comp_def]
    exact follows _ start inside
  · exact List.Subset.refl _

/-- A repetition goes on with one more unit, behind which less of the text is left, or it ends. -/
theorem stop_mem_units_iff {count : Nat} {stop : Cursor} :
    stop ∈ (units config ask slot count start).map Chain.stop ↔
      (slot.quantifier.allowsMore count = true ∧
        ∃ opened ∈ (openings (ε := ε) (κ := κ) config count start).map Chain.stop,
          ∃ middle ∈ (unit ask slot opened).map Reading.stop,
            middle.rest.length < start.rest.length ∧
              stop ∈ (units config ask slot (count + 1) middle).map Chain.stop) ∨
        slot.quantifier.admits count = true ∧ stop = start := by
  rw [stops_units, List.mem_append, List.mem_ite_nil_right, List.mem_ite_nil_right,
    List.mem_singleton, List.mem_flatMap]
  simp only [List.mem_flatMap, List.mem_ite_nil_right]

theorem units_follows (sound : Sound rules config ask) (follows : Follows text ask ask')
    (target : wider.target = slot.target) (quantifier : slot.quantifier.WidensTo wider.quantifier)
    (count : Nat) {start : Cursor} (inside : start.In text) :
    (units config ask slot count start).map Chain.stop ⊆
      (units config ask' wider count start).map Chain.stop := by
  intro stop member
  apply stop_mem_units_iff.mpr
  obtain ⟨more, opened, before, middle, read, shorter, rest⟩ | here :=
    stop_mem_units_iff.mp member
  · obtain ⟨opening, listed, rfl⟩ := List.mem_map.mp before
    obtain ⟨_, separator⟩ := (mem_openings.mp listed).passes
    have insideOpened := inside.passes separator
    obtain ⟨found, unit, rfl⟩ := List.mem_map.mp read
    obtain ⟨_, passes⟩ := (derives_of_mem_unit sound unit).passes
    have insideMiddle := insideOpened.passes passes
    apply Or.inl
    refine ⟨quantifier.allowsMore more, opening.stop, before, found.stop, ?_, shorter, ?_⟩
    · exact unit_follows follows target insideOpened read
    · exact units_follows sound follows target quantifier (count + 1) insideMiddle rest
  · exact .inr ⟨quantifier.admits here.1, here.2⟩
termination_by start.rest.length

/-- A unit that moves on may be repeated once. -/
theorem unit_repeats {stop : Cursor} (admitted : slot.quantifier.admits 1 = true)
    (more : slot.quantifier.allowsMore 0 = true)
    (read : stop ∈ (unit ask slot start).map Reading.stop)
    (shorter : stop.rest.length < start.rest.length) :
    stop ∈ (units config ask slot 0 start).map Chain.stop := by
  have opened : start ∈ (openings (ε := ε) (κ := κ) config 0 start).map Chain.stop :=
    List.mem_map.mpr ⟨⟨start, []⟩, mem_openings.mpr (.first start), rfl⟩
  have last : stop ∈ (units config ask slot 1 stop).map Chain.stop :=
    stop_mem_units_iff.mpr (.inr ⟨admitted, rfl⟩)
  exact stop_mem_units_iff.mpr (.inl ⟨more, start, opened, stop, read, shorter, last⟩)

/-- A placeholder that occurs exactly once may be repeated instead, if its units move on or if no
unit will do as well. -/
theorem units_of_one (sound : Sound rules config ask) (follows : Follows text ask ask')
    (target : wider.target = slot.target) (one : slot.quantifier = .one)
    (quantifier : slot.quantifier.WidensTo wider.quantifier)
    (repeated : wider.quantifier.least = 0 ∨ NeverEmpty rules config text slot)
    (inside : start.In text) :
    (unit ask slot start).map Reading.stop ⊆ (units config ask' wider 0 start).map Chain.stop := by
  intro stop member
  obtain ⟨found, read, rfl⟩ := List.mem_map.mp member
  have derived := derives_of_mem_unit sound read
  obtain ⟨word, passes⟩ := derived.passes
  have admitted : wider.quantifier.admits 1 = true := quantifier.admits (by rw [one]; rfl)
  have more : wider.quantifier.allowsMore 0 = true := quantifier.allowsMore (by rw [one]; rfl)
  by_cases shorter : found.stop.rest.length < start.rest.length
  · exact unit_repeats admitted more (unit_follows follows target inside member) shorter
  · have stays : found.stop.offset = start.offset := by
      rwa [passes.rest_lt_iff, ne_eq, not_not] at shorter
    rcases repeated with none | never
    -- No unit at all stops at the same place as an empty one.
    · have without : wider.quantifier.admits 0 = true := by simp [Quantifier.admits, none]
      rw [passes.word_eq_nil_iff.mpr stays] at passes
      exact stop_mem_units_iff.mpr (.inr ⟨without, passes.eq_of_nil⟩)
    · exact absurd stays (never _ _ _ inside derived)

theorem item_follows (sound : Sound rules config ask) (follows : Follows text ask ask')
    {item other : Item} (widens : item.WidensTo (NeverEmpty rules config text) other)
    (inside : start.In text) : (Enumerate.item config ask item start).map Reading.stop ⊆
      (Enumerate.item config ask' other start).map Reading.stop := by
  cases widens with
  | literal => exact List.Subset.refl _
  | @placeholder slot wider target quantifier repeated =>
    rw [item, item, target]
    cases single : slot.target.single? with
    | some accepts =>
      -- A run is read in one go, and what is counted are its characters.
      simp only [stops_words]
      intro stop member
      obtain ⟨word, passes, accepted⟩ := Cursor.mem_behind.mp member
      obtain ⟨all, count⟩ := Bool.and_eq_true_iff.mp accepted
      apply Cursor.mem_behind.mpr
      exact ⟨word, passes, Bool.and_eq_true_iff.mpr ⟨all, quantifier.admits count⟩⟩
    | none =>
      have stops {ask : String → Cursor → List (TypeReading ε κ)} (slot : Placeholder) :
          ((units config ask slot 0 start).map fun found => (⟨found.stop, .covering start found.stop
            (some slot.name) (.repetition slot.quantifier) found.nodes⟩ : Reading ε κ)).map
              Reading.stop = (units config ask slot 0 start).map Chain.stop := by
        simp only [List.map_map, Function.comp_def]
      by_cases one : slot.quantifier = .one
      · by_cases one' : wider.quantifier = .one
        · simp only [if_pos one, if_pos one']
          exact unit_follows follows target inside
        · simp only [if_pos one, if_neg one', stops]
          exact units_of_one sound follows target one quantifier ((repeated one).resolve_left one')
            inside
      · by_cases one' : wider.quantifier = .one
        -- Nothing is as narrow as exactly one, so there is nothing to be lost.
        · simp only [if_neg one, stops]
          intro stop member
          obtain ⟨chain, read, rfl⟩ := List.mem_map.mp member
          obtain ⟨total, admitted, -⟩ := derives_of_mem_units sound read
          exact absurd ((one' ▸ quantifier).eq_one admitted) one
        · simp only [if_neg one, if_neg one', stops]
          exact units_follows sound follows target quantifier 0 inside

theorem items_follows (sound : Sound rules config ask) (follows : Follows text ask ask')
    {list others : List Item}
    (widens : List.Forall₂ (Item.WidensTo (NeverEmpty rules config text)) list others)
    (inside : start.In text) : (items config ask list start).map Chain.stop ⊆
      (items config ask' others start).map Chain.stop := by
  induction widens generalizing start with
  | nil => exact List.Subset.refl _
  | cons first _ ih =>
    rw [stops_items, stops_items]
    intro stop member
    obtain ⟨middle, read, behind⟩ := List.mem_flatMap.mp member
    obtain ⟨found, listed, rfl⟩ := List.mem_map.mp read
    obtain ⟨_, passes⟩ := (derives_of_mem_item sound listed).passes
    apply List.mem_flatMap.mpr
    exact ⟨found.stop, item_follows sound follows first inside read,
      ih (inside.passes passes) behind⟩

theorem oneOf_follows (sound : Sound rules config ask) (follows : Follows text ask ask')
    {alternatives others : List (Alternative ε κ)}
    (widens : List.Forall₂ (Alternative.WidensTo (NeverEmpty rules config text)) alternatives
      others) (inside : start.In text) :
    (oneOf config ask alternatives start).map TypeReading.stop ⊆
      (oneOf config ask' others start).map TypeReading.stop := by
  rw [stops_oneOf, stops_oneOf]
  induction widens with
  | nil => exact List.Subset.refl _
  | cons first _ ih =>
    rw [List.flatMap_cons, List.flatMap_cons]
    have here := items_follows sound follows first inside
    exact List.append_subset.mpr ⟨List.Subset.trans here (List.subset_append_left _ _),
      List.Subset.trans ih (List.subset_append_right _ _)⟩

/-- Where a type has no reading in itself, it has none in either grammar. -/
theorem Follows.avoiding (follows : Follows text ask ask') (name : String) (start : Cursor) :
    Follows text (avoiding name start ask) (avoiding name start ask') := by
  intro inner place inside
  rw [Enumerate.avoiding, Enumerate.avoiding]
  split
  · exact List.Subset.refl _
  · exact follows inner place inside

/-- With wider quantifiers, types stop where they did, to any depth. -/
theorem type_follows (widens : ∀ name, List.Forall₂
      (Alternative.WidensTo (NeverEmpty rules config text)) (rules name) (rules' name))
    (levels : Nat) : Follows text (type rules config levels) (type rules' config levels) := by
  induction levels with
  | zero => exact fun _ _ _ => List.Subset.refl _
  | succ levels ih =>
    intro name place inside
    rw [type, type]
    exact oneOf_follows (avoiding_sound (type_sound levels)) (ih.avoiding name place) (widens name)
      inside

/-! ### Texts -/

/-- A row of sentences is one where sentences end at more places. -/
theorem SentenceRow.mono {ends ends' : Cursor → List Cursor} {opens : Cursor → Prop}
    {place : Cursor} {stops : List Cursor} (row : SentenceRow ends opens place stops)
    (within : EndsInside ends text) (inside : place.In text)
    (more : ∀ place : Cursor, place.In text → ends place ⊆ ends' place) :
    SentenceRow ends' opens place stops := by
  induction row with
  | none atEnd => exact .none atEnd
  | last sentence atEnd => exact .last (more _ inside sentence) atEnd
  | further sentence separated opened _ ih =>
    have behind := inside_skipBlank (within _ inside _ sentence)
    exact .further (more _ inside sentence) separated opened (ih behind)

section

variable {registry wider : Registry ε κ} {text : String}
  (widens : registry.WidensTo (NeverEmpty registry.alternatives config text.toList) wider)
  (noMutual : NoMutualLeftRecursion registry.alternatives config text.toList)
  (noMutual' : NoMutualLeftRecursion wider.alternatives config text.toList)

include widens noMutual noMutual'

/-- With wider quantifiers, sentences end where they did. -/
theorem passEnds_widened {place : Cursor} (inside : place.In text.toList) :
    passEnds registry config text place ⊆ passEnds wider config text place := by
  -- There are as many types as before, so they are read to the same depth.
  have levels : levelsFor registry text.toList = levelsFor wider text.toList := by
    rw [levelsFor, levelsFor, widens.types.length_eq]
  have types : Follows text.toList (canonical registry config text.toList)
      (canonical wider config text.toList) := by
    intro name place inside
    rw [canonical, canonical, ← levels]
    exact type_follows widens.alternatives _ name place inside
  intro stop member
  obtain ⟨reading, read, rfl⟩ := (mem_passEnds_iff noMutual inside).mp member
  obtain ⟨other, listed, same⟩ := List.mem_map.mp (oneOf_follows (canonical_sound registry config _)
    types widens.sentences inside (List.mem_map_of_mem read))
  exact (mem_passEnds_iff noMutual' inside).mpr ⟨other, listed, same⟩

/-- Wider quantifiers lose no text. What is asked of the grammars is that no types recur in each
other at one place, so that every reading is found, and with several sentences, that no place can be
reached both directly behind a sentence and behind white space, so that every row of sentences
is. -/
theorem accepts_widened (unambiguous : config.severalSentences = true →
      Unambiguous (passEnds wider config text) (firstPlace text))
    (accepted : Accepts registry config text) : Accepts wider config text := by
  have begin : (firstPlace text).In text.toList := inside_skipBlank (Cursor.in_start _)
  have ends {place : Cursor} (inside : place.In text.toList) :=
    passEnds_widened widens noMutual noMutual' inside
  cases several : config.severalSentences with
  | false =>
    rw [accepts_iff_sentence several] at accepted ⊢
    apply accepted.imp_right
    rintro ⟨stop, sentence, atEnd⟩
    exact ⟨stop, ends begin sentence, atEnd⟩
  | true =>
    have visits (registry : Registry ε κ) : Accepts registry config text ↔
        ∃ stops, SentenceRow (passEnds registry config text)
          (Opened (passEnds registry config text) (firstPlace text)) (firstPlace text) stops := by
      rw [← visited_atEnd_iff passEnds_inside begin (firstPlace_settled text), accepts_iff_visit]
      simp [several]
    obtain ⟨stops, row⟩ := (visits registry).mp accepted
    -- The row is still one, and as no place is ambiguous, its sentences begin where they may.
    have widened := (row.imp fun _ _ => trivial).mono passEnds_inside begin fun _ => ends
    exact (visits wider).mpr ⟨stops, row_opened passEnds_inside begin (firstPlace_settled text)
      (unambiguous several) .start widened⟩

end

/-- Places are unambiguous if a list of visits contains all that can be reached, and none of them in
both ways. -/
theorem unambiguous_of_closed {ends : Cursor → List Cursor} (visits : List Visit)
    (begins : (start, true) ∈ visits)
    (closed : ∀ visit ∈ visits, successors ends visit ⊆ visits)
    (once : ∀ visit ∈ visits, (visit.1, !visit.2) ∉ visits) : Unambiguous ends start := by
  have known {visit : Visit} (reached : Reachable ends start visit) : visit ∈ visits := by
    induction reached with
    | start => exact begins
    | next _ sentence _ ih => exact closed _ ih (mem_successors.mpr ⟨rfl, _, sentence, rfl⟩)
  intro place behind directly
  exact once _ (known behind) (known directly)

/-! ### A single type without references -/

section

variable {name : String} {list : List Item} {sentences : List (List Item)}
  (terminal : ∀ item ∈ list, ∀ inner, ¬item.Names inner)

include terminal

theorem not_asks {outer inner : String × Cursor} :
    ¬Asks (Registry.ofItems [(name, [list])] sentences).alternatives config outer inner := by
  rintro ⟨chosen, member, asked⟩
  obtain ⟨slot, placed, target⟩ := asked.target
  obtain ⟨entry, listed, -, known⟩ := Registry.mem_ofItems member
  obtain rfl := List.mem_singleton.mp listed
  rw [List.mem_singleton.mp known] at placed
  exact terminal _ placed _ target

theorem noLeftRecursion_of_terminal (text : List Char) : NoLeftRecursion
    (Registry.ofItems [(name, [list])] sentences).alternatives config text := by
  intro pair _ again
  obtain ⟨_, asks, -⟩ := Relation.TransGen.head'_iff.mp again
  exact not_asks terminal asks

end

/-- A number and its unit. -/
def measured (quantifier : Quantifier) : Registry Empty Empty :=
  .ofItems [("unit", [[.literal "mm" ⟨0, 0⟩]])]
    [[.placeholder ⟨"n", .builtin .int, .one, ⟨0, 0⟩⟩,
      .placeholder ⟨"u", .named "unit", quantifier, ⟨0, 0⟩⟩]]

theorem accepts_widened_measured :
    let repeatable := NeverEmpty (measured .one).alternatives {} "3mm 4mm".toList
    (measured .one).WidensTo repeatable (measured .oneOrMore) ∧
      NoMutualLeftRecursion (measured .one).alternatives {} "3mm 4mm".toList ∧
        NoMutualLeftRecursion (measured .oneOrMore).alternatives {} "3mm 4mm".toList ∧
          Unambiguous (passEnds (measured .oneOrMore) {} "3mm 4mm") (firstPlace "3mm 4mm") ∧
            Accepts (measured .one) {} "3mm 4mm" ∧ Accepts (measured .oneOrMore) {} "3mm 4mm" := by
  intro repeatable
  have units slot (target : slot.target = .named "unit") : repeatable slot :=
    neverEmpty_of_literal target (by decide)
  have widens : (measured .one).WidensTo repeatable (measured .oneOrMore) :=
    Registry.WidensTo.imp units (by decide)
  have noMutual quantifier :
      NoMutualLeftRecursion (measured quantifier).alternatives {} "3mm 4mm".toList :=
    (noLeftRecursion_of_terminal (by simp [Item.Names]) _).noMutual _ _
  have unambiguous :
      Unambiguous (passEnds (measured .oneOrMore) {} "3mm 4mm") (firstPlace "3mm 4mm") :=
    unambiguous_of_closed [(⟨0, "3mm 4mm".toList⟩, true), (⟨4, "4mm".toList⟩, true),
      (⟨7, []⟩, false)] (by decide) (by decide +kernel) (by decide)
  have accepted : Accepts (measured .one) {} "3mm 4mm" := by decide +kernel
  exact ⟨widens, noMutual _, noMutual _, unambiguous, accepted,
    accepts_widened widens (noMutual _) (noMutual _) (fun _ => unambiguous) accepted⟩

/-! ### Lost texts -/

/-- A text is no longer accepted when quantifiers of a grammar without left recursion get wider. -/
def LosesText (registry wider : Registry ε κ) (config : Config) (text : String) : Prop :=
  (∀ text, NoLeftRecursion registry.alternatives config text) ∧
    registry.WidensTo (fun _ => True) wider ∧
      Accepts registry config text ∧ ¬Accepts wider config text

/-- Two letters, and between them a digit that may be missing. -/
def perhapsDigit (quantifier : Quantifier) : Registry Empty Empty :=
  .ofItems [("t", [[.placeholder ⟨"d", .builtin .digit, .optional, ⟨0, 0⟩⟩]])]
    [[.literal "a" ⟨0, 0⟩, .placeholder ⟨"x", .named "t", quantifier, ⟨0, 0⟩⟩,
      .literal "b" ⟨0, 0⟩]]

/-- Two types that begin with each other, one of them behind something else. -/
def crossedBehind (quantifier : Quantifier) : Registry Empty Empty :=
  .ofItems [("g", [[.literal "z" ⟨0, 0⟩]]),
    ("p", [[.placeholder ⟨"g", .named "g", quantifier, ⟨0, 0⟩⟩, .type "q", .literal "x" ⟨0, 0⟩],
      [.literal "a" ⟨0, 0⟩]]),
    ("q", [[.type "p", .literal "y" ⟨0, 0⟩], [.literal "b" ⟨0, 0⟩]])] [[.type "p"], [.type "q"]]

-- The last type is asked for by the one above it only behind something else.
private theorem crossedBehind_falls {outer inner : String × Cursor}
    (asks : Asks (crossedBehind .one).alternatives config outer inner) :
    outer.2.offset < inner.2.offset ∨
      ["g", "p", "q"].idxOf inner.1 < ["g", "p", "q"].idxOf outer.1 := by
  obtain ⟨chosen, member, asked⟩ := asks
  obtain ⟨slot, placed, target⟩ := asked.target
  obtain ⟨entry, listed, named, known⟩ := Registry.mem_ofItems member
  rw [← named]
  simp only [List.mem_cons, List.not_mem_nil, or_false] at listed
  rcases listed with rfl | rfl | rfl
  · simp [List.mem_singleton.mp known] at placed
  · rcases List.mem_cons.mp known with crosses | letter
    · rw [crosses] at asked
      cases asked with
      | here first _ =>
        obtain rfl : "g" = _ := Target.named.inj first
        exact .inr (show ["g", "p", "q"].idxOf "g" < ["g", "p", "q"].idxOf "p" by decide)
      | later first others =>
        obtain ⟨_, further⟩ := others.passes
        cases first with
        | run run => cases run
        | repetition _ several => exact absurd rfl several
        | single _ _ unit =>
          have moved := unit.moves rfl (by decide)
          exact .inl (moved.trans_le further.offset_le)
    · simp [List.mem_singleton.mp letter] at placed
  · obtain rfl : slot = ⟨"p", .named "p", .one, ⟨0, 0⟩⟩ := by
      rcases List.mem_cons.mp known with crosses | letter
      · simpa [crosses, Item.type] using placed
      · simp [List.mem_singleton.mp letter] at placed
    rw [← Target.named.inj target]
    exact .inr (by decide)

private theorem crossedBehind_acyclic (text : List Char) :
    NoLeftRecursion (crossedBehind .one).alternatives config text :=
  noLeftRecursion_of_rank ["g", "p", "q"].idxOf (fun _ _ => crossedBehind_falls) text

/-- A letter, which may take blanks behind it. -/
def spacedLetters (quantifier : Quantifier) : Registry Empty Empty :=
  .ofItems [("s", [[.literal " " ⟨0, 0⟩]])]
    [[.literal "a" ⟨0, 0⟩, .placeholder ⟨"x", .named "s", quantifier, ⟨0, 0⟩⟩],
      [.literal "a" ⟨0, 0⟩], [.literal "b" ⟨0, 0⟩]]

/-- What wider quantifiers may lose. A unit that may be empty is not repeated, so a placeholder that
occurs exactly once does more than one that repeats. Where nothing has to stand in front of a type
any more, left recursion may come about. And a sentence that takes fewer blanks may be first at a
place behind them, where the next sentence would begin. -/
theorem widening_loses_text :
    LosesText (perhapsDigit .one) (perhapsDigit .oneOrMore) {} "ab" ∧
      LosesText (crossedBehind .one) (crossedBehind .optional) { severalSentences := false } "ay" ∧
        LosesText (spacedLetters ⟨2, some 2⟩) (spacedLetters ⟨1, some 2⟩) {} "a b" := by
  have unrepeated : LosesText (perhapsDigit .one) (perhapsDigit .oneOrMore) {} "ab" :=
    ⟨noLeftRecursion_of_terminal (by simp [Item.Names]), by decide, by decide +kernel,
      by decide +kernel⟩
  have recursive : LosesText (crossedBehind .one) (crossedBehind .optional)
      { severalSentences := false } "ay" :=
    ⟨crossedBehind_acyclic, by decide, by decide +kernel, by decide +kernel⟩
  have joined : LosesText (spacedLetters ⟨2, some 2⟩) (spacedLetters ⟨1, some 2⟩) {} "a b" :=
    ⟨noLeftRecursion_of_terminal (by simp [Item.Names]), by decide, by decide +kernel,
      by decide +kernel⟩
  exact ⟨unrepeated, recursive, joined⟩

end Matching
end SentenceGrammar
