import SentenceGrammar.Proofs.EndedAttempts

/-!
# What can come first

White space in front of a sentence is no part of it. So if a text is cut off in front of a sentence,
what follows must not begin with white space to become part of the sentence. An item can come first
in a pattern if the items in front of it can be empty, and so on within types. At the end of a text
every attempt is one at such an item.
-/
namespace SentenceGrammar

open Text (isBlank)

variable {ε κ : Type}

/-- The item accepts white space as its first character. -/
def Item.TakesBlank : Item → Prop
  | .literal text _ => ∃ c ∈ text.toList.head?, isBlank c = true
  | .placeholder slot => ∃ accepts ∈ slot.target.single?, ∃ c, isBlank c = true ∧ accepts c = true

namespace Matching

open Enumerate

variable (rules : String → List (Alternative ε κ)) (config : Config)

/-- An item may be filled with nothing. -/
def Nullable (item : Item) : Prop := ∃ place node, DerivesItem rules config item place place node

/-- An item can come first in a list of items. -/
inductive Opens : List Item → Item → Prop where
  | here (item : Item) (rest : List Item) : Opens (item :: rest) item
  | inside {slot : Placeholder} {rest : List Item} {name : String} {chosen : Alternative ε κ}
      {item : Item} (target : slot.target = .named name) (member : chosen ∈ rules name)
      (first : Opens chosen.pattern.items item) : Opens (.placeholder slot :: rest) item
  | behind {first item : Item} {rest : List Item} (nothing : Nullable rules config first)
      (later : Opens rest item) : Opens (first :: rest) item

/-- Nothing but a literal can come first where one is, unless it is empty. -/
theorem Opens.eq_literal {rules : String → List (Alternative ε κ)} {config : Config} {text : String}
    {span : Span} {rest : List Item} {item : Item} (some : text ≠ "")
    (opens : Opens rules config (.literal text span :: rest) item) : item = .literal text span := by
  cases opens with
  | here => rfl
  | behind nothing =>
    obtain ⟨place, node, derived⟩ := nothing
    cases derived with
    | literal passes =>
      have moved := passes.offset_eq
      have size := mt (Text.byteSize_eq_zero_iff text.toList).mp
        (mt String.toList_eq_nil_iff.mp some)
      omega

/-- Nothing that can come first in a sentence accepts white space as its first character. -/
def NoLeadingBlank (registry : Registry ε κ) (config : Config) : Prop :=
  ∀ sentence ∈ registry.sentences, ∀ item,
    Opens registry.alternatives config sentence.pattern.items item → ¬item.TakesBlank

/-- The attempt is one at the item itself, and not at something within it. -/
def Attempt.Fills (attempt : Attempt ε κ) : Item → Prop
  | .literal text _ => attempt.slot = none ∧ attempt.kind = .literal text
  | .placeholder slot => attempt.slot = some slot ∧ ∀ text, attempt.kind ≠ .literal text

variable {rules config} {ask : String → Cursor → List (TypeReading ε κ)} {context : Context}
  {start : Cursor} {attempt : Attempt ε κ}

variable (rules config) in
/-- An item that can come first is attempted right at the place. -/
structure FirstAttempt (attempt : Attempt ε κ) (start : Cursor) (list : List Item) : Prop where
  here : attempt.start = start
  item : ∃ item, Opens rules config list item ∧ attempt.Fills item

theorem FirstAttempt.literal (text : String) (span : Span) (rest : List Item) :
    FirstAttempt rules config (literalAttempt (ε := ε) (κ := κ) text start) start
      (.literal text span :: rest) :=
  ⟨literalAttempt_start text start, _, .here _ rest, literalAttempt_slot text start,
    literalAttempt_kind text start⟩

mutual

theorem TriesUnit.first (sound : Sound rules config ask) {context : Context} {slot : Placeholder}
    {start : Cursor} {attempt : Attempt ε κ} (ended : start.rest = []) (rest : List Item) :
    TriesUnit rules config ask context slot start attempt →
      FirstAttempt rules config attempt start (.placeholder slot :: rest)
  | .number _ _ => ⟨rfl, _, .here _ rest, rfl, fun _ kind => nomatch kind⟩
  | .type target _ inner => by
    obtain ⟨here, chosen, member, item, opens, fills⟩ := inner.first sound ended
    exact ⟨here, item, .inside target member opens, fills⟩

theorem TriesUnits.first (sound : Sound rules config ask) {context : Context} {slot : Placeholder}
    {count : Nat} {start : Cursor} {attempt : Attempt ε κ} (none : count = 0)
    (ended : start.rest = []) (rest : List Item) :
    TriesUnits rules config ask context slot count start attempt →
      FirstAttempt rules config attempt start (.placeholder slot :: rest)
  | .separator _ _ further _ => absurd none further
  | .here _ opened first => by
    have same := (mem_openings.mp (none ▸ opened)).eq_of_first
    exact same ▸ first.first sound (same ▸ ended) rest
  | .later _ _ _ moved _ => by
    simp [ended] at moved

theorem TriesItem.first (sound : Sound rules config ask) {context : Context} {item : Item}
    {start : Cursor} {attempt : Attempt ε κ} (ended : start.rest = []) (rest : List Item) :
    TriesItem rules config ask context item start attempt →
      FirstAttempt rules config attempt start (item :: rest)
  | .literal _ => .literal _ _ rest
  | .run _ _ => ⟨rfl, _, .here _ rest, rfl, runKind_plain _⟩
  | .single _ _ unit => unit.first sound ended rest
  | .repetition _ _ units => units.first sound rfl ended rest

theorem TriesItems.first (sound : Sound rules config ask) {context : Context} {list : List Item}
    {start : Cursor} {attempt : Attempt ε κ} (ended : start.rest = []) :
    TriesItems rules config ask context list start attempt →
      FirstAttempt rules config attempt start list
  | .here first => first.first sound ended _
  | .later read others => by
    have derived := derives_of_mem_item (within_sound sound context) read
    obtain ⟨word, passes⟩ := derived.passes
    -- There is nothing left to be read in front of the others.
    obtain rfl : word = [] := (List.append_eq_nil_iff.mp (passes.rest_eq.symm.trans ended)).1
    have same := passes.eq_of_nil
    obtain ⟨here, item, opens, fills⟩ := others.first sound (same ▸ ended)
    rw [same] at derived here
    exact ⟨here, item, .behind ⟨_, _, derived⟩ opens, fills⟩

theorem TriesType.first (sound : Sound rules config ask) {name : String} {start : Cursor}
    {attempt : Attempt ε κ} (ended : start.rest = []) :
    TriesType rules config ask name start attempt →
      attempt.start = start ∧ ∃ chosen ∈ rules name, ∃ item,
        Opens rules config chosen.pattern.items item ∧ attempt.Fills item
  | .alternative member items => by
    obtain ⟨here, opened⟩ := items.first sound ended
    exact ⟨here, _, member, opened⟩

end

end Matching
end SentenceGrammar
