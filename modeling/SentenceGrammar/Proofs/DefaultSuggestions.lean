import SentenceGrammar.Proofs.AcceptedLiterals
import SentenceGrammar.Proofs.SearchedGrammar
import SentenceGrammar.Proofs.SuggestionOrder

/-!
# What is suggested by default

Without completers, a suggestion comes from a tree in one of three ways. It goes on with a literal
that was begun, it is a marker for a placeholder that was not, or it is a whole alternative with
markers for all of its placeholders. Each kind of suggestion has its own shape, whatever is around
the place where the text breaks off.

## Main result

`autocomplete_formed`: the shape of every suggestion.
-/
namespace SentenceGrammar

variable {ε κ σ : Type}

theorem Text.utf8ByteSize_eq (text : String) : text.utf8ByteSize = byteSize text.toList := by
  rw [← String.ofList_toList (s := text), String.toList_ofList]
  induction text.toList with
  | nil => rfl
  | cons c rest ih =>
    rw [String.ofList_cons, String.utf8ByteSize_append, String.utf8ByteSize_singleton, ih,
      byteSize_cons]

/-! ### Whole alternatives -/

/-- The text of a literal, or the marker of a placeholder. -/
def Item.written (config : Config) : Item → String
  | .literal text _ => text
  | .placeholder slot => config.marker slot.name

/-- The texts of items one behind the other. -/
def writtenAll (config : Config) (items : List Item) : String :=
  String.join (items.map (Item.written config))

theorem writtenAll_append (config : Config) (front back : List Item) :
    writtenAll config (front ++ back) = writtenAll config front ++ writtenAll config back := by
  simp [writtenAll]

/-- Either all items are literals, or one of them is the first placeholder. -/
theorem exists_first_placeholder (items : List Item) :
    (∀ slot, Item.placeholder slot ∉ items) ∨ ∃ front slot back,
      items = front ++ .placeholder slot :: back ∧ ∀ other, Item.placeholder other ∉ front := by
  induction items with
  | nil => exact .inl (by simp)
  | cons item rest ih =>
    cases item with
    | placeholder slot => exact .inr ⟨[], slot, rest, rfl, by simp⟩
    | literal text span =>
      rcases ih with literals | ⟨front, slot, back, rfl, literals⟩
      · exact .inl (by simpa using literals)
      · exact .inr ⟨.literal text span :: front, slot, back, rfl, by simpa using literals⟩

namespace Suggestion

variable {config : Config} {items : List Item}

/-- The completion consists of the items, and the marker of the first placeholder is selected. -/
structure Spells (config : Config) (items : List Item) (suggestion : Suggestion) : Prop where
  completion : suggestion.completion = writtenAll config items
  absent : suggestion.selection = none ↔ ∀ slot, Item.placeholder slot ∉ items
  covers : ∀ start stop, suggestion.selection = some (start, stop) → ∃ front slot back,
    items = front ++ .placeholder slot :: back ∧ (∀ other, Item.placeholder other ∉ front) ∧
      start = (writtenAll config front).utf8ByteSize ∧
      (⟨start, stop⟩ : Span).slice? suggestion.completion.toList =
        some (config.marker slot.name).toList

theorem extend_fst (state : String × Option (Nat × Nat)) (item : Item) :
    (whole.extend config state item).1 = state.1 ++ item.written config := by
  cases item <;> rfl

theorem foldl_extend_fst (state : String × Option (Nat × Nat)) (items : List Item) :
    (items.foldl (whole.extend config) state).1 = state.1 ++ writtenAll config items := by
  induction items generalizing state with
  | nil => simp [writtenAll]
  | cons item rest ih =>
    rw [List.foldl_cons, ih, extend_fst, String.append_assoc]
    simp [writtenAll]

/-- Literals select nothing. -/
theorem foldl_extend_literals (literals : ∀ slot, Item.placeholder slot ∉ items)
    (state : String × Option (Nat × Nat)) :
    (items.foldl (whole.extend config) state).2 = state.2 := by
  induction items generalizing state with
  | nil => rfl
  | cons item rest ih =>
    have later : ∀ slot, Item.placeholder slot ∉ rest :=
      fun slot member => literals slot (List.mem_cons_of_mem _ member)
    rw [List.foldl_cons, ih later]
    cases item with
    | literal => rfl
    | placeholder slot => exact absurd List.mem_cons_self (literals slot)

/-- What is selected stays selected. -/
theorem foldl_extend_selected {state : String × Option (Nat × Nat)} {selected : Nat × Nat}
    (before : state.2 = some selected) (items : List Item) :
    (items.foldl (whole.extend config) state).2 = some selected := by
  induction items generalizing state with
  | nil => exact before
  | cons item rest ih =>
    apply ih
    cases item <;> simp [whole.extend, before]

theorem whole_completion (config : Config) (items : List Item) :
    (whole config items).completion = writtenAll config items := by
  have joined : (whole config items).completion = _ := foldl_extend_fst ("", none) items
  rwa [String.empty_append] at joined

/-- The selection lies around the first marker. -/
theorem whole_selection {front back : List Item} {slot : Placeholder}
    (literals : ∀ other, Item.placeholder other ∉ front) :
    (whole config (front ++ .placeholder slot :: back)).selection =
      some ((writtenAll config front).utf8ByteSize,
        (writtenAll config front ++ config.marker slot.name).utf8ByteSize) := by
  have before : front.foldl (whole.extend config) ("", none) = (writtenAll config front, none) :=
    Prod.ext ((foldl_extend_fst _ front).trans String.empty_append)
      (foldl_extend_literals literals _)
  change ((front ++ .placeholder slot :: back).foldl (whole.extend config) ("", none)).2 = _
  rw [List.foldl_append, before, List.foldl_cons]
  exact foldl_extend_selected rfl back

theorem whole_spells (config : Config) (items : List Item) :
    (whole config items).Spells config items := by
  rcases exists_first_placeholder items with literals | ⟨front, slot, back, rfl, literals⟩
  · have none : (whole config items).selection = none := foldl_extend_literals literals _
    refine ⟨whole_completion config items, ⟨fun _ => literals, fun _ => none⟩, ?_⟩
    intro start stop same
    cases none.symm.trans same
  · have selection : (whole config (front ++ .placeholder slot :: back)).selection = _ :=
      whole_selection literals
    refine ⟨whole_completion config _, ⟨fun none => ?_, fun all => ?_⟩, fun start stop same => ?_⟩
    · cases selection.symm.trans none
    · exact absurd (List.mem_append_right _ List.mem_cons_self) (all slot)
    · obtain ⟨rfl, rfl⟩ := Prod.mk.inj (Option.some.inj (same.symm.trans selection))
      refine ⟨front, slot, back, rfl, literals, rfl, Span.slice?_eq_some_iff.mpr ?_⟩
      -- The text behind the front goes on with the marker, and then with what is behind it.
      have text : (whole config (front ++ .placeholder slot :: back)).completion.toList =
          (writtenAll config front).toList ++ ((config.marker slot.name).toList ++
            (writtenAll config back).toList) := by
        rw [whole_completion, writtenAll_append]
        simp [writtenAll, Item.written]
      refine ⟨⟨_, (config.marker slot.name).toList ++ (writtenAll config back).toList⟩,
        ⟨_, (writtenAll config back).toList⟩, ⟨(writtenAll config front).toList, text, ?_⟩,
        ⟨rfl, ?_⟩, rfl⟩
      · simp [Text.utf8ByteSize_eq]
      · simp [Text.utf8ByteSize_eq]

/-! ### Shapes of suggestions -/

variable {registry : Registry ε κ}

/-- The shape of a suggestion for a text. Behind less than `2 ^ 32` bytes, the text ends in what is
already entered. -/
structure Formed (registry : Registry ε κ) (config : Config) (text : String)
    (suggestion : Suggestion) : Prop where
  begins : suggestion.entered.toList <+: suggestion.completion.toList
  ends : Text.byteSize text.toList < 2 ^ 32 → suggestion.entered.toList <:+ text.toList
  literal : suggestion.kind = .literal → suggestion.selection = none
  placeholder : suggestion.kind = .placeholder → suggestion.entered = "" ∧ ∃ slot,
    registry.HasPlaceholder slot ∧
      suggestion.completion = config.markerOpen ++ slot.name ++ config.markerClose ∧
      suggestion.selection = some (0, suggestion.completion.utf8ByteSize)
  sequence : suggestion.kind = .sequence → suggestion.entered = "" ∧
    ∃ chosen ∈ registry.allAlternatives, chosen.insertWhole = true ∧
      suggestion.Spells config chosen.pattern.items

theorem formed_literal {text completion entered : String}
    (begins : entered.toList <+: completion.toList)
    (ends : Text.byteSize text.toList < 2 ^ 32 → entered.toList <:+ text.toList) :
    (literal completion entered).Formed registry config text where
  begins := begins
  ends := ends
  literal _ := rfl
  placeholder := nofun
  sequence := nofun

theorem formed_placeholder {slot : Placeholder} (has : registry.HasPlaceholder slot)
    (text : String) : (placeholder (config.marker slot.name)).Formed registry config text where
  begins := List.nil_prefix
  ends _ := List.nil_suffix
  literal := nofun
  placeholder _ := ⟨rfl, slot, has, rfl, rfl⟩
  sequence := nofun

theorem formed_whole {chosen : Alternative ε κ} (registered : chosen ∈ registry.allAlternatives)
    (insert : chosen.insertWhole = true) (text : String) :
    (whole config chosen.pattern.items).Formed registry config text where
  begins := List.nil_prefix
  ends _ := List.nil_suffix
  literal := nofun
  placeholder := nofun
  sequence _ := ⟨rfl, chosen, registered, insert, whole_spells config _⟩

end Suggestion

/-! ### Trees -/

/-- No completer is in charge of any alternative. -/
def Registry.Unattended (registry : Registry ε κ) : Prop :=
  ∀ chosen ∈ registry.allAlternatives, Completing.completerOf? registry chosen = none

instance (registry : Registry ε κ) : Decidable registry.Unattended :=
  inferInstanceAs (Decidable (∀ chosen ∈ registry.allAlternatives,
    Completing.completerOf? registry chosen = none))

namespace Completing

variable {registry : Registry ε κ} {config : Config} {root : Node ε κ} {suggestion : Suggestion}

/-- If all completers defer, a node answers with its whole alternative or leaves the decision to
those further in. -/
theorem nodeAnswer_deferring (registry : Registry ε κ) (config : Config) (node : Node ε κ) :
    nodeAnswer (fun _ _ => .defer) registry config node = .defer ∨
      ∃ chosen, node.alternative? = some chosen ∧ chosen.insertWhole = true ∧
        nodeAnswer (fun _ _ => .defer) registry config node =
          .suggest [.whole config chosen.pattern.items] := by
  rw [nodeAnswer]
  cases alternative : node.alternative? with
  | none => exact .inl rfl
  | some chosen =>
    have deferred : ((completerOf? registry chosen).map fun _ => Completion.defer).getD .defer =
        .defer := by cases completerOf? registry chosen <;> rfl
    simp only [deferred, true_and]
    split
    next insert => exact .inr ⟨chosen, rfl, insert.1, rfl⟩
    next => exact .inl rfl

/-- So a tree offers a whole alternative that it is incomplete in, or else what its innermost node
does by default. -/
theorem mem_offers_verdict
    (offered : suggestion ∈ offers config (verdict (fun _ _ => .defer) registry config root)) :
    (∃ node ∈ root.openChain, ∃ chosen, node.alternative? = some chosen ∧
      chosen.insertWhole = true ∧ suggestion = .whole config chosen.pattern.items) ∨
        suggestion ∈ offers config (default root.innermost) := by
  rw [verdict] at offered
  cases first : (root.openChain.map (nodeAnswer (fun _ _ => .defer) registry config)).find?
      (· ≠ .defer) with
  | none =>
    rw [first] at offered
    exact .inr offered
  | some answer =>
    rw [first, Option.getD_some] at offered
    obtain ⟨node, inner, rfl⟩ := List.mem_map.mp (List.mem_of_find?_eq_some first)
    rcases nodeAnswer_deferring registry config node with
      deferred | ⟨chosen, alternative, insert, whole⟩
    · rw [deferred] at offered
      cases offered
    · rw [whole] at offered
      exact .inl ⟨node, inner, chosen, alternative, insert, List.mem_singleton.mp offered⟩

/-- Whatever all trees come to was offered by one of them. -/
theorem mem_settle {answers : List Completion}
    (member : suggestion ∈ (settle config [] answers).toList) :
    ∃ answer ∈ answers, suggestion ∈ offers config answer := by
  rw [settle] at member
  split at member
  · cases member
  · exact List.mem_flatMap.mp ((mem_addNew.mp member).resolve_left List.not_mem_nil).mem

theorem nodup_settle (config : Config) (answers : List Completion) :
    (completions (settle config [] answers).toList).Nodup := by
  rw [settle]
  split
  · exact .nil
  · exact addNew_nodup _

end Completing

namespace Parser

open Completing (InStep answering collect completions settle verdict)

variable {registry : Registry ε κ} {config : Config} {surroundings : σ} {text : String}
  {cursor : Nat}

/-- That nobody is in charge is as if everybody deferred. -/
theorem outcome_unattended (unattended : registry.Unattended) (meaning : Meaning ε κ σ)
    (checking : Bool) :
    outcome (suggestions meaning checking text cursor) registry config surroundings =
      (outcome (parseUnfinished text cursor) registry config surroundings).map fun roots =>
        settle config [] (roots.map (verdict (fun _ _ => .defer) registry config)) := by
  rw [outcome_suggestions]
  cases found : outcome (parseUnfinished text cursor) registry config surroundings with
  | error => rfl
  | ok roots =>
    have inStep : InStep (fun _ _ => True)
        (collect meaning.ask registry config checking [] roots)
        (collect (answering fun _ _ _ => .defer) registry config checking [] roots) := by
      refine Completing.collect_inStep [] fun root member node inner =>
        Completing.ownAnswer_inStep fun chosen alternative =>
          Completing.charged_inStep fun completer charge => ?_
      have registered := openChain_registered found root member node inner chosen alternative
      cases (unattended chosen registered).symm.trans charge
    simp only [Except.map]
    rw [(inStep surroundings surroundings trivial).1, Completing.collect_settles,
      Completing.decisions_answering]
    rfl

/-- A tree of a text breaks off in an innermost node that the grammar knows, unless it has nothing
but itself. -/
theorem innermost_stands {roots : List (Node ε κ)}
    (found : outcome (parseUnfinished text cursor) registry config surroundings = .ok roots)
    {root : Node ε κ} (listed : root ∈ roots) :
    UnfinishedTree (textBefore text cursor).toList root ∧
      (root.innermost.kind ≠ .script → root.innermost.StandsIn registry) := by
  refine ⟨unfinishedTree_of_root found listed, fun other => ?_⟩
  obtain ⟨nodes, cut, rfl⟩ := exists_cut_of_root found listed
  obtain ⟨leaf, last, stands⟩ := (Matching.scriptRun_meets registry config true _).1 nodes cut
  obtain rfl := Option.some.inj (last.symm.trans (Node.openLeaf?_inside other))
  exact stands

/-- What the innermost node of a tree offers by default has its shape. -/
theorem innermost_formed {root : Node ε κ}
    (tree : UnfinishedTree (textBefore text cursor).toList root)
    (stands : root.innermost.kind ≠ .script → root.innermost.StandsIn registry)
    {suggestion : Suggestion}
    (offered : suggestion ∈ Completing.offers config (Completing.default root.innermost)) :
    suggestion.Formed registry config (textBefore text cursor) := by
  rcases Completing.mem_offers_default offered with ⟨begun, kind, rfl⟩ | ⟨kind, rfl⟩
  · obtain ⟨below, incomplete⟩ := tree.innermost_below
    obtain ⟨front, shown⟩ := tree.chain.ends
    refine Suggestion.formed_literal ((tree.ended _ below incomplete).2 begun kind).1
      fun small => ⟨front.toList, ?_⟩
    rw [← String.toList_append, ← shown, tree.leaves small, String.toList_ofList]
  · have other : root.innermost.kind ≠ .script := by
      rcases kind with kind | ⟨type, kind⟩ <;> simp [kind]
    cases stands other with
    | literal literal => rcases kind with kind | ⟨type, kind⟩ <;> cases kind.symm.trans literal
    | placeholder fills has =>
      rw [fills]
      exact Suggestion.formed_placeholder has _

/-- Whatever the grammar is, if it has no completers: no two suggestions have the same completion,
and each of them has its shape. A literal goes on with what a text of less than `2 ^ 32` bytes ends
in. A marker stands for a placeholder of the grammar. A whole alternative is written in order, and
its first marker is selected. -/
theorem autocomplete_formed (unattended : registry.Unattended) (meaning : Meaning ε κ σ)
    {suggested : List Suggestion}
    (completed : outcome (autocomplete meaning text cursor) registry config surroundings =
      .ok suggested) :
    (completions suggested).Nodup ∧
      ∀ suggestion ∈ suggested, suggestion.Formed registry config (textBefore text cursor) := by
  rw [autocomplete, outcome_map, outcome_unattended unattended] at completed
  cases found : outcome (parseUnfinished text cursor) registry config surroundings with
  | error failure =>
    rw [found] at completed
    cases completed
  | ok roots =>
    rw [found] at completed
    obtain rfl := Except.ok.inj completed
    refine ⟨Completing.nodup_settle config _, fun suggestion member => ?_⟩
    obtain ⟨_, answered, offered⟩ := Completing.mem_settle member
    obtain ⟨root, listed, rfl⟩ := List.mem_map.mp answered
    rcases Completing.mem_offers_verdict offered with
      ⟨node, inner, chosen, alternative, insert, rfl⟩ | offered
    · have registered := openChain_registered found root listed node inner chosen alternative
      exact Suggestion.formed_whole registered insert _
    · obtain ⟨tree, stands⟩ := innermost_stands found listed
      exact innermost_formed tree stands offered

/-- Three sentences that begin alike. The last one goes on with a type that is inserted whole. -/
def forks : Registry Empty Completion where
  types := [⟨"pair", [⟨some "pair", ⟨"", [.placeholder ⟨"x", .builtin .int, .one, ⟨0, 0⟩⟩,
    .literal "-" ⟨0, 0⟩, .placeholder ⟨"y", .builtin .int, .one, ⟨0, 0⟩⟩]⟩, none, none, true⟩]⟩]
  sentences := [⟨none, ⟨"", [.literal "éa" ⟨0, 0⟩]⟩, none, none, false⟩,
    ⟨none, ⟨"", [.literal "é" ⟨0, 0⟩, .placeholder ⟨"n", .builtin .int, .one, ⟨0, 0⟩⟩]⟩, none, none,
      false⟩,
    ⟨none, ⟨"", [.literal "é" ⟨0, 0⟩, .type "pair"]⟩, none, none, false⟩]

/-- What goes on behind the first letter, where a marker only begins with `→`. -/
def forked : List Suggestion :=
  [.literal "éa" "é", .placeholder "→n", ⟨"→x-→y", "", some (0, 4), .sequence⟩]

theorem autocomplete_formed_forks :
    forks.Unattended ∧
      outcome (autocomplete ⟨nofun, answering fun completer _ _ => completer⟩ "é" 2) forks
        { markerOpen := "→", markerClose := "" } () = .ok forked ∧
      (completions forked).Nodup ∧ ∀ suggestion ∈ forked,
        suggestion.Formed forks { markerOpen := "→", markerClose := "" } (textBefore "é" 2) := by
  have unattended : forks.Unattended := by decide
  have completed : outcome (autocomplete ⟨nofun, answering fun completer _ _ => completer⟩ "é" 2)
      forks { markerOpen := "→", markerClose := "" } () = .ok forked := by decide +kernel
  exact ⟨unattended, completed, autocomplete_formed unattended _ completed⟩

end Parser
end SentenceGrammar
