import SentenceGrammar.Proofs.DecidingAnswers
import SentenceGrammar.Proofs.RegistryContents

/-!
# Completers that defer

The completer of a type goes before those of its alternatives: where a type has one, they are not
asked, whatever it answers. So a completer of a type that always defers does not go unnoticed. It
leaves the decision to the nodes further in, as if the completers of the alternatives had deferred.

## Main result

`deferral_attached`: what is suggested once a type was given a completer that always defers.
-/
namespace SentenceGrammar

variable {ε κ σ : Type}

namespace Matching

/-! ### Reading looks at no completer -/

/-- The same search, but with other completers. -/
def Scope.attend (completers : List (String × κ)) (scope : Scope ε κ) : Scope ε κ :=
  { scope with registry := { scope.registry with completers } }

/-- To read types as with other completers. -/
def TypeReader.attend (completers : List (String × κ)) (named : TypeReader ε κ) :
    TypeReader ε κ :=
  fun scope => named (scope.attend completers)

section

variable (completers : List (String × κ)) (scope : Scope ε κ) (named : TypeReader ε κ)

theorem readRepeated_attend (unit : Cursor → Search ε κ (Readings ε κ)) (quantifier : Quantifier)
    (steps done : Nat) (start : Cursor) :
    readRepeated (scope.attend completers) unit quantifier steps done start =
      readRepeated scope unit quantifier steps done start := by
  induction steps generalizing done start with
  | zero => rfl
  | succ steps ih =>
    rw [readRepeated, readRepeated]
    simp only [ih]
    rfl

theorem readItem_attend (item : Item) (start : Cursor) :
    readItem (scope.attend completers) named item start =
      readItem scope (named.attend completers) item start := by
  cases item with
  | literal text span => rfl
  | placeholder slot =>
    have repeated : readRepetition (scope.attend completers) named slot start =
        readRepetition scope (named.attend completers) slot start := by
      rw [readRepetition, readRepetition, readRepeated_attend]
      rfl
    rw [readItem, readItem, readPlaceholder, readPlaceholder, repeated]
    rfl

theorem readItems_attend (items : List Item) (chains : List (Chain ε κ)) :
    readItems (scope.attend completers) named items chains =
      readItems scope (named.attend completers) items chains := by
  induction items generalizing chains with
  | nil => rfl
  | cons item rest ih =>
    rw [readItems, readItems]
    simp only [readItem_attend, ih]

theorem readAlternatives_attend (alternatives : List (Alternative ε κ)) (start : Cursor) :
    readAlternatives (scope.attend completers) named alternatives start =
      readAlternatives scope (named.attend completers) alternatives start := by
  rw [readAlternatives, readAlternatives]
  simp only [readItems_attend]

end

theorem readType_attend (completers : List (String × κ)) (levels : Nat) :
    (readType levels : TypeReader ε κ).attend completers = readType levels := by
  induction levels with
  | zero => rfl
  | succ levels ih =>
    funext scope name start
    rw [TypeReader.attend, readType, readType]
    have inner (active : List (String × Nat)) :
        { scope.attend completers with active } = { scope with active }.attend completers := rfl
    simp only [inner, readAlternatives_attend, ih]
    rfl

theorem advance_attend (completers : List (String × κ)) (scope : Scope ε κ)
    (named : TypeReader ε κ) (first : Bool) (step : Step ε κ) :
    advance (scope.attend completers) named first step =
      advance scope (named.attend completers) first step := by
  rw [advance, advance]
  simp only [readAlternatives_attend]
  rfl

theorem rounds_attend (completers : List (String × κ)) (scope : Scope ε κ) (named : TypeReader ε κ)
    (left : Nat) (first : Bool) (seen : List Nat) (frontier : List (Step ε κ))
    (readings : ScriptReadings ε κ) :
    rounds (scope.attend completers) named left first seen frontier readings =
      rounds scope (named.attend completers) left first seen frontier readings := by
  induction left generalizing first seen frontier readings with
  | zero => rfl
  | succ left ih =>
    rw [rounds, rounds]
    simp only [ih, funext (advance_attend completers scope named first)]
    rfl

/-- The unfinished trees of a text are the same whatever completers there are. -/
theorem unfinished_attend (completers : List (String × κ)) (registry : Registry ε κ)
    (config : Config) (text : String) :
    unfinished { registry with completers } config text = unfinished registry config text := by
  have script (scope : Scope ε κ) (start : Cursor) :
      readScript (scope.attend completers) start = readScript scope start := by
    rw [readScript, readScript]
    simp only [rounds_attend, readType_attend]
    rfl
  have search : searchText { registry with completers } config true text =
      searchText registry config true text := by
    rw [searchText, searchText]
    simp only [← script { registry, config, completing := true }]
    rfl
  rw [unfinished, unfinished, search]

end Matching

namespace Completing

variable {alike : σ → σ → Prop} {ask : Ask ε κ σ} {registry attended : Registry ε κ}
  {config : Config} {checking : Bool} {name : String} {deferring : κ}

/-- Completers that are asked as before, except about the nodes of one type: there they defer. -/
def hush (name : String) (ask : Ask ε κ σ) : Ask ε κ σ :=
  fun completer node checking =>
    if node.typeName? = some name then pure .defer else ask completer node checking

/-- No completer looks at what may be different in surroundings that are alike. -/
def Steady (alike : σ → σ → Prop) (ask : Ask ε κ σ) : Prop :=
  ∀ completer node checking,
    InStep alike (ask completer node checking) (ask completer node checking)

/-- The completer always defers, and leaves the surroundings alike. -/
def Defers (alike : σ → σ → Prop) (ask : Ask ε κ σ) (completer : κ) : Prop :=
  ∀ node checking, InStep alike (ask completer node checking) (pure .defer)

theorem InStep.symm {α : Type} {one other : StateM σ α} (equivalence : Equivalence alike)
    (inStep : InStep alike one other) : InStep alike other one := by
  intro here there same
  obtain ⟨result, left⟩ := inStep there here (equivalence.symm same)
  exact ⟨result.symm, equivalence.symm left⟩

/-- Of all completers, the one that was set is in charge of the alternatives of its type. -/
theorem completerOf?_attached (attached : registry.setCompleter name deferring = .ok attended)
    (chosen : Alternative ε κ) : completerOf? attended chosen =
      if chosen.owner = some name then some deferring else completerOf? registry chosen := by
  obtain ⟨-, rfl⟩ := Registry.setCompleter_ok_iff.mp attached
  rw [completerOf?, completerOf?]
  cases chosen.owner with
  | none => rfl
  | some owner =>
    simp only [Option.bind_some, Registry.typeCompleter?, List.lookup_cons, Registry.lookup_filter,
      Option.some.injEq]
    by_cases same : owner = name
    · simp [same]
    · simp [same, beq_eq_false_iff_ne.mpr same]

/-- With a completer that defers, a node answers as if the completers of the alternatives of its
type had deferred. -/
theorem ownAnswer_attached (steady : Steady alike ask) (defers : Defers alike ask deferring)
    (attached : registry.setCompleter name deferring = .ok attended) (node : Node ε κ) :
    InStep alike (ownAnswer ask attended config checking node)
      (ownAnswer (hush name ask) registry config checking node) := by
  apply ownAnswer_inStep
  intro chosen alternative
  have named : node.typeName? = chosen.owner := by
    rw [Node.typeName?, alternative, Option.bind_some]
  rw [charged, charged, completerOf?_attached attached]
  by_cases ofType : chosen.owner = some name
  -- In the registry as it was, some other completer may be in charge, but it is hushed.
  · have hushed (completer : κ) : hush name ask completer node checking = pure .defer :=
      if_pos (named.trans ofType)
    simp only [if_pos ofType, hushed]
    cases completerOf? registry chosen <;> exact defers node checking
  · have heard (completer : κ) :
        hush name ask completer node checking = ask completer node checking :=
      if_neg (named ▸ ofType)
    simp only [if_neg ofType, heard]
    cases completerOf? registry chosen with
    | none => exact .pure _
    | some completer => exact steady completer node checking

/-- To hush completers that defer anyway makes no difference. -/
theorem ownAnswer_hush (equivalence : Equivalence alike) (steady : Steady alike ask)
    (unattended : registry.typeCompleter? name = none) {node : Node ε κ}
    (own : ∀ chosen, node.alternative? = some chosen → chosen.owner = some name →
      ∀ completer, chosen.completer = some completer → Defers alike ask completer) :
    InStep alike (ownAnswer (hush name ask) registry config checking node)
      (ownAnswer ask registry config checking node) := by
  apply ownAnswer_inStep
  intro chosen alternative
  apply charged_inStep
  intro completer charge
  rw [hush, Node.typeName?, alternative, Option.bind_some]
  split
  next owner =>
    -- The type as a whole has no completer, so it is the one of the alternative.
    rw [completerOf?, owner, Option.bind_some, unattended] at charge
    exact (own chosen alternative owner completer charge node checking).symm equivalence
  next => exact steady completer node checking

end Completing

namespace Parser

open Completing (Steady Defers hush)

variable {alike : σ → σ → Prop} {meaning : Meaning ε κ σ} {registry attended : Registry ε κ}
  {here there : σ} {name : String} {deferring : κ}

/-- What is suggested with a completer that defers is what is suggested with hushed completers. -/
theorem suggestions_attached (steady : Steady alike meaning.ask)
    (defers : Defers alike meaning.ask deferring)
    (attached : registry.setCompleter name deferring = .ok attended) (same : alike here there)
    (config : Config) (checking : Bool) (text : String) (cursor : Nat) :
    outcome (suggestions meaning checking text cursor) attended config here =
      outcome (suggestions { meaning with ask := hush name meaning.ask } checking text cursor)
        registry config there := by
  obtain ⟨-, contents⟩ := Registry.setCompleter_ok_iff.mp attached
  rw [outcome_suggestions, outcome_suggestions, outcome_parseUnfinished, outcome_parseUnfinished,
    contents, Matching.unfinished_attend, ← contents]
  congr 1
  funext roots
  apply (Completing.collect_inStep [] _ here there same).1
  intro root _ node _
  exact Completing.ownAnswer_attached steady defers attached node

/-- If the completers of the alternatives defer as well, it makes no difference to hush them. -/
theorem suggestions_hush (equivalence : Equivalence alike) (steady : Steady alike meaning.ask)
    (unattended : registry.typeCompleter? name = none)
    (own : ∀ chosen ∈ registry.allAlternatives, chosen.owner = some name →
      ∀ completer, chosen.completer = some completer → Defers alike meaning.ask completer)
    (surroundings : σ) (config : Config) (checking : Bool) (text : String) (cursor : Nat) :
    outcome (suggestions { meaning with ask := hush name meaning.ask } checking text cursor)
        registry config surroundings =
      outcome (suggestions meaning checking text cursor) registry config surroundings := by
  rw [outcome_suggestions, outcome_suggestions]
  cases found : outcome (parseUnfinished text cursor) registry config surroundings with
  | error => rfl
  | ok roots =>
    apply congrArg Except.ok
    apply (Completing.collect_inStep [] _ _ _ (equivalence.refl surroundings)).1
    intro root member node open'
    apply Completing.ownAnswer_hush equivalence steady unattended
    intro chosen alternative
    exact own chosen (openChain_registered found root member node open' chosen alternative)

/-- A completer that always defers may be set for a defined type that has none. What is suggested
then, and whether anything can be, is what it would be if the completers of the alternatives of the
type deferred. So if they do, or if there are none, nothing changes at all. -/
theorem deferral_attached (equivalence : Equivalence alike) (steady : Steady alike meaning.ask)
    (defers : Defers alike meaning.ask deferring) (defined : registry.containsType name = true)
    (unattended : registry.typeCompleter? name = none) (same : alike here there)
    (config : Config) (text : String) (cursor : Nat) :
    let hushed := { meaning with ask := hush name meaning.ask }
    ∃ attended, registry.setCompleter name deferring = .ok attended ∧
      (outcome (autocomplete meaning text cursor) attended config here =
          outcome (autocomplete hushed text cursor) registry config there ∧
        outcome (checkCompletion meaning text cursor) attended config here =
          outcome (checkCompletion hushed text cursor) registry config there) ∧
      ((∀ chosen ∈ registry.allAlternatives, chosen.owner = some name →
          ∀ completer, chosen.completer = some completer → Defers alike meaning.ask completer) →
        outcome (autocomplete meaning text cursor) attended config here =
            outcome (autocomplete meaning text cursor) registry config there ∧
          outcome (checkCompletion meaning text cursor) attended config here =
            outcome (checkCompletion meaning text cursor) registry config there) := by
  intro hushed
  obtain ⟨attended, attached⟩ : ∃ attended, registry.setCompleter name deferring = .ok attended :=
    ⟨_, Registry.setCompleter_ok_iff.mpr ⟨defined, rfl⟩⟩
  have completed : outcome (autocomplete meaning text cursor) attended config here =
      outcome (autocomplete hushed text cursor) registry config there := by
    rw [autocomplete, autocomplete, outcome_map, outcome_map,
      suggestions_attached steady defers attached same]
  have checked : outcome (checkCompletion meaning text cursor) attended config here =
      outcome (checkCompletion hushed text cursor) registry config there := by
    rw [checkCompletion, checkCompletion, outcome_map, outcome_map,
      suggestions_attached steady defers attached same]
  refine ⟨attended, attached, ⟨completed, checked⟩, fun own => ?_⟩
  rw [completed, checked, autocomplete, autocomplete, checkCompletion, checkCompletion]
  simp only [outcome_map, hushed, suggestions_hush equivalence steady unattended own, and_self]

/-- Every completer is its own answer. -/
def plain : Meaning Empty Completion Unit where
  program := nofun
  ask completer _ _ := return completer

/-- Lengths where the completer of a unit defers. -/
def plainLengths : Registry Empty Completion where
  types := [⟨"unit", [⟨some "unit", ⟨"mm", [.literal "mm" ⟨0, 0⟩]⟩, none, none, false⟩,
    ⟨some "unit", ⟨"px", [.literal "px" ⟨0, 0⟩]⟩, none, some .defer, false⟩]⟩]
  sentences := lengths.sentences

/-- Both units are suggested as before. -/
theorem deferral_attached_lengths :
    Equivalence (Eq : Unit → Unit → Prop) ∧ Steady Eq plain.ask ∧ Defers Eq plain.ask .defer ∧
    plainLengths.containsType "unit" = true ∧ plainLengths.typeCompleter? "unit" = none ∧
    (∀ chosen ∈ plainLengths.allAlternatives, chosen.owner = some "unit" →
      ∀ completer, chosen.completer = some completer → Defers Eq plain.ask completer) ∧
    ∃ attended, plainLengths.setCompleter "unit" .defer = .ok attended ∧
      outcome (autocomplete plain "3 " 2) attended {} () =
        .ok [.literal "mm" "", .literal "px" ""] := by
  have steady : Steady Eq plain.ask := by
    rintro completer node checking here _ rfl
    exact ⟨rfl, rfl⟩
  have defers : Defers Eq plain.ask .defer := by
    rintro node checking here _ rfl
    exact ⟨rfl, rfl⟩
  have own : ∀ chosen ∈ plainLengths.allAlternatives, chosen.owner = some "unit" →
      ∀ completer, chosen.completer = some completer → Defers Eq plain.ask completer := by
    intro chosen member _ completer charge
    have all : ∀ chosen ∈ plainLengths.allAlternatives, chosen.completer = none ∨
        chosen.completer = some .defer := by
      decide
    rcases all chosen member with nobody | deferring
    · cases nobody.symm.trans charge
    · obtain rfl := Option.some.inj (deferring.symm.trans charge)
      exact defers
  have defined : plainLengths.containsType "unit" = true := by decide
  have unattended : plainLengths.typeCompleter? "unit" = none := by decide
  obtain ⟨attended, attached, -, unchanged⟩ :=
    deferral_attached eq_equivalence steady defers defined unattended (Eq.refl ()) {} "3 " 2
  refine ⟨eq_equivalence, steady, defers, defined, unattended, own, attended, attached, ?_⟩
  rw [(unchanged own).1]
  decide +kernel

/-- The other name of a unit is not suggested any more once lengths have a completer that defers,
as nobody asks the completer of that unit then. -/
theorem deferral_noticed :
    lengths.containsType "unit" = true ∧ lengths.typeCompleter? "unit" = none ∧
    (∀ node checking, plain.ask .defer node checking = pure .defer) ∧
    outcome (autocomplete plain "3 " 2) lengths {} () =
      .ok [.literal "mm" "", .literal "pixel" ""] ∧
    ∃ attended, lengths.setCompleter "unit" .defer = .ok attended ∧
      outcome (autocomplete plain "3 " 2) attended {} () =
        .ok [.literal "mm" "", .literal "px" ""] :=
  ⟨by decide, by decide, fun _ _ => rfl, by decide +kernel, _, rfl, by decide +kernel⟩

end Parser
end SentenceGrammar
