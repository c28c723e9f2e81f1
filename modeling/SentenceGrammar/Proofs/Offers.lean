import SentenceGrammar.Proofs.UnfinishedTrees

/-!
# What is expected and what is offered

At the end of a text that is cut off, a search expects the rest of some literals, and what is cut off
is offered as a completion. Where nobody else decides, the two are the same: a literal is expected to
go on just if some tree ends in the beginning of it. Of several offers with one completion, only the
first is a suggestion, though. They may differ in how much of the completion was entered, so the
suggestion does not show all that is expected of it.

## Main result

`expected_iff_offered`: at the end of a text, what is expected of literals is what trees offer, and
how the suggestions are chosen among all offers.
-/
namespace SentenceGrammar

variable {ε κ σ : Type}

/-! ### Open chains -/

namespace Node

theorem openChain_ne_nil (root : Node ε κ) : root.openChain ≠ [] := by
  rw [openChain_eq]
  exact List.cons_ne_nil _ _

/-- The last of the nodes in which a tree is incomplete. -/
def innermost (root : Node ε κ) : Node ε κ := root.openChain.getLast root.openChain_ne_nil

mutual

/-- The nodes of the chain are below the first one and incomplete, if it is. -/
theorem mem_openChain {node : Node ε κ} : {root : Node ε κ} → root.complete = false →
    node ∈ root.openChain → node.Below root ∧ node.complete = false
  | ⟨_, _, _, _, _, children⟩, incomplete, member => by
    rw [openChain_eq] at member
    rcases List.mem_cons.mp member with rfl | inner
    · exact ⟨.refl, incomplete⟩
    · obtain ⟨child, listed, below, open'⟩ := mem_openChainLast inner
      exact ⟨below_iff.mpr (.inr ⟨child, listed, below⟩), open'⟩

theorem mem_openChainLast {node : Node ε κ} : {nodes : List (Node ε κ)} →
    node ∈ openChainLast nodes → ∃ root ∈ nodes, node.Below root ∧ node.complete = false
  | [], member => by cases member
  | [root], member => by
    rw [openChainLast] at member
    split at member
    · cases member
    next incomplete =>
      exact ⟨root, List.mem_cons_self, mem_openChain (Bool.eq_false_iff.mpr incomplete) member⟩
  | _ :: next :: rest, member => by
    rw [openChainLast] at member
    obtain ⟨root, listed, below⟩ := mem_openChainLast member
    exact ⟨root, List.mem_cons_of_mem _ listed, below⟩

end

/-- Nothing is open behind complete nodes. -/
theorem openChainLast_finished {front : List (Node ε κ)} (finished : ∀ node ∈ front, node.Finished) :
    openChainLast front = [] := by
  refine List.eq_nil_iff_forall_not_mem.mpr fun node member => ?_
  obtain ⟨root, listed, below, incomplete⟩ := mem_openChainLast member
  rw [finished root listed node below] at incomplete
  cases incomplete

theorem openLeaf?_behind {front nodes : List (Node ε κ)}
    (finished : ∀ node ∈ front, node.Finished) : openLeaf? (front ++ nodes) = openLeaf? nodes := by
  by_cases some : nodes = []
  · rw [some, List.append_nil, openLeaf?, openChainLast_finished finished]
    rfl
  · rw [openLeaf?, openChainLast_append front some]
    rfl

theorem openLeaf?_around (start : Cursor) (name : Option String) (kind : NodeKind ε κ)
    (nodes : List (Node ε κ)) : openLeaf? [cutOff start name kind nodes] =
      some ((openLeaf? nodes).getD (cutOff start name kind nodes)) := by
  rw [openLeaf?, openChainLast_cutOff, List.getLast?_cons, ← openLeaf?]

theorem openLeaf?_leaf (start : Cursor) (name : Option String) (kind : NodeKind ε κ) :
    openLeaf? [cutOff start name kind []] = some (cutOff start name kind []) :=
  openLeaf?_around start name kind []

theorem openLeaf?_innermost (start : Cursor) (name : Option String) (kind : NodeKind ε κ)
    (nodes : List (Node ε κ)) : openLeaf? [cutOff start name kind nodes] =
      some (cutOff start name kind nodes).innermost := by
  rw [openLeaf?, openChainLast_cutOff, innermost, ← List.getLast?_eq_some_getLast, openChain_eq]
  rfl

end Node

/-- The innermost node of an unfinished tree belongs to it and is incomplete. -/
theorem UnfinishedTree.innermost_below {text : List Char} {root : Node ε κ}
    (shape : UnfinishedTree text root) :
    root.innermost.Below root ∧ root.innermost.complete = false :=
  Node.mem_openChain shape.chain.incomplete (List.getLast_mem root.openChain_ne_nil)

theorem UnfinishedTree.innermost_unclipped {text : List Char} {root : Node ε κ}
    (shape : UnfinishedTree text root) (small : Text.byteSize text < 2 ^ 32) :
    root.innermost.text = root.innermost.covered :=
  shape.unclipped small _ shape.innermost_below.1

/-! ### Defaults -/

/-- No completer is in charge of any alternative, and none is inserted as a whole. -/
def Registry.LeavesDefaults (registry : Registry ε κ) : Prop :=
  ∀ chosen ∈ registry.allAlternatives,
    Completing.completerOf? registry chosen = none ∧ chosen.insertWhole = false

instance (registry : Registry ε κ) : Decidable registry.LeavesDefaults :=
  inferInstanceAs (Decidable (∀ chosen ∈ registry.allAlternatives,
    Completing.completerOf? registry chosen = none ∧ chosen.insertWhole = false))

namespace Suggestion

/-- What is left of the suggestions that are literals. -/
def remainders (suggestions : List Suggestion) : List String :=
  (suggestions.filter fun suggestion => suggestion.kind = .literal).map remainder

theorem mem_remainders {suggestions : List Suggestion} {rest : String} :
    rest ∈ remainders suggestions ↔
      ∃ suggestion ∈ suggestions, suggestion.kind = .literal ∧ suggestion.remainder = rest := by
  simp [remainders, and_assoc]

theorem remainder_literal {completion entered rest : String}
    (parts : completion.toList = entered.toList ++ rest.toList) :
    (literal completion entered).remainder = rest := by
  have cut : entered.toList.isPrefixOf? completion.toList = some rest.toList :=
    List.isPrefixOf?_eq_some_iff_append_eq.mpr parts.symm
  simp [remainder, literal, cut]

/-- What is left is the end of the completion. -/
theorem exists_remainder (suggestion : Suggestion) :
    ∃ front, suggestion.completion = front ++ suggestion.remainder := by
  rw [remainder]
  split
  next rest cut =>
    refine ⟨suggestion.entered, ?_⟩
    rw [← String.toList_inj, String.toList_append, String.toList_ofList]
    exact (List.isPrefixOf?_eq_some_iff_append_eq.mp cut).symm
  next => exact ⟨"", by simp⟩

end Suggestion

namespace Node

/-- The node covers a literal but for its rest. -/
def Lacks (rest : String) (node : Node ε κ) : Prop :=
  ∃ text, node.kind = .literal text ∧ (Suggestion.literal text node.covered).remainder = rest

theorem not_lacks {rest : String} {node : Node ε κ} (other : ∀ text, node.kind ≠ .literal text) :
    ¬node.Lacks rest :=
  fun ⟨text, same, _⟩ => other text same

theorem lacks_literal {rest : String} {node : Node ε κ} {text missing : String}
    (kind : node.kind = .literal text) (parts : text.toList = node.covered.toList ++ missing.toList) :
    node.Lacks rest ↔ missing = rest := by
  constructor
  · rintro ⟨other, same, rfl⟩
    obtain rfl := NodeKind.literal.inj (kind.symm.trans same)
    exact (Suggestion.remainder_literal parts).symm
  · rintro rfl
    exact ⟨text, kind, Suggestion.remainder_literal parts⟩

end Node

namespace Completing

variable {ask : Ask ε κ σ} {registry : Registry ε κ} {config : Config} {checking : Bool}

/-- What all trees offer by default, in their order. -/
def allOffers (config : Config) (roots : List (Node ε κ)) : List Suggestion :=
  roots.flatMap fun root => offers config (default root.innermost)

/-- The first of several suggestions with its completion, which none of the earlier ones has. -/
def FirstOf (earlier suggestions : List Suggestion) (suggestion : Suggestion) : Prop :=
  ∃ front back, suggestions = front ++ suggestion :: back ∧
    ∀ other ∈ earlier ++ front, other.completion ≠ suggestion.completion

theorem FirstOf.mem {earlier suggestions : List Suggestion} {suggestion : Suggestion}
    (first : FirstOf earlier suggestions suggestion) : suggestion ∈ suggestions := by
  obtain ⟨front, back, rfl, -⟩ := first
  simp

theorem firstOf_cons {earlier rest : List Suggestion} {first suggestion : Suggestion} :
    FirstOf earlier (first :: rest) suggestion ↔
      (suggestion = first ∧ ∀ other ∈ earlier, other.completion ≠ first.completion) ∨
        FirstOf (earlier ++ [first]) rest suggestion := by
  constructor
  · rintro ⟨front, back, parts, new⟩
    cases front with
    | nil =>
      obtain ⟨rfl, rfl⟩ := List.cons.inj parts
      exact .inl ⟨rfl, by simpa using new⟩
    | cons head front =>
      obtain ⟨rfl, rfl⟩ := List.cons.inj parts
      exact .inr ⟨front, back, rfl, by simpa using new⟩
  · rintro (⟨rfl, new⟩ | ⟨front, back, rfl, new⟩)
    · exact ⟨[], rest, rfl, by simpa using new⟩
    · exact ⟨first :: front, back, rfl, by simpa using new⟩

/-- A suggestion behind another one with a completion that is known anyway. -/
theorem firstOf_known {known rest : List Suggestion} {first suggestion : Suggestion}
    (old : ∃ earlier ∈ known, earlier.completion = first.completion) :
    FirstOf (known ++ [first]) rest suggestion ↔ FirstOf known rest suggestion := by
  obtain ⟨earlier, listed, same⟩ := old
  refine exists_congr fun front => exists_congr fun back => and_congr_right fun _ => ?_
  simp only [List.forall_mem_append, List.forall_mem_singleton]
  constructor
  · rintro ⟨⟨before, -⟩, between⟩
    exact ⟨before, between⟩
  · rintro ⟨before, between⟩
    exact ⟨⟨before, same ▸ before earlier listed⟩, between⟩

/-- Of the suggestions with a new completion, the first is added. -/
theorem mem_addNew {known suggestions : List Suggestion} {suggestion : Suggestion} :
    suggestion ∈ addNew known suggestions ↔
      suggestion ∈ known ∨ FirstOf known suggestions suggestion := by
  induction suggestions generalizing known with
  | nil => simp [addNew, FirstOf]
  | cons first rest ih =>
    rw [addNew, List.foldl_cons, ← addNew, ih, firstOf_cons]
    simp only [List.any_eq_true, decide_eq_true_eq]
    split
    next old =>
      have known' : ¬∀ other ∈ known, other.completion ≠ first.completion := by simpa using old
      rw [firstOf_known old]
      simp [known']
    next new =>
      have new' : ∀ other ∈ known, other.completion ≠ first.completion := by simpa using new
      rw [List.mem_append, List.mem_singleton, or_assoc, and_iff_left new']

theorem addNew_append (known front back : List Suggestion) :
    addNew known (front ++ back) = addNew (addNew known front) back :=
  List.foldl_append

theorem exists_firstOf {earlier suggestions : List Suggestion} {suggestion : Suggestion}
    (member : suggestion ∈ suggestions) :
    (∃ other ∈ earlier, other.completion = suggestion.completion) ∨
      ∃ first, FirstOf earlier suggestions first ∧ first.completion = suggestion.completion := by
  induction suggestions generalizing earlier with
  | nil => cases member
  | cons head rest ih =>
    by_cases old : ∃ other ∈ earlier, other.completion = head.completion
    · rcases List.mem_cons.mp member with rfl | later
      · exact .inl old
      · refine (ih later).imp_right fun ⟨first, among, same⟩ => ⟨first, ?_, same⟩
        exact firstOf_cons.mpr (.inr ((firstOf_known old).mpr among))
    · have new : ∀ other ∈ earlier, other.completion ≠ head.completion := by simpa using old
      have here : FirstOf earlier (head :: rest) head := firstOf_cons.mpr (.inl ⟨rfl, new⟩)
      rcases List.mem_cons.mp member with rfl | later
      · exact .inr ⟨_, here, rfl⟩
      · have further : (∃ other ∈ earlier ++ [head], other.completion = suggestion.completion) ∨
            ∃ first, FirstOf (earlier ++ [head]) rest first ∧
              first.completion = suggestion.completion := ih later
        rcases further with ⟨other, known, same⟩ | ⟨first, among, same⟩
        · rcases List.mem_append.mp known with before | last
          · exact .inl ⟨other, before, same⟩
          · obtain rfl := List.mem_singleton.mp last
            exact .inr ⟨_, here, same⟩
        · exact .inr ⟨first, firstOf_cons.mpr (.inr among), same⟩

/-- The node leaves the decision to those further in. -/
def Silent (registry : Registry ε κ) (node : Node ε κ) : Prop :=
  ∀ chosen, node.alternative? = some chosen →
    completerOf? registry chosen = none ∧ chosen.insertWhole = false

theorem ownAnswer_default {node : Node ε κ} (silent : Silent registry node) :
    ownAnswer ask registry config checking node = pure .defer := by
  rw [ownAnswer]
  cases alternative : node.alternative? with
  | none => rfl
  | some chosen =>
    obtain ⟨nobody, parts⟩ := silent chosen alternative
    simp [nobody, parts]

/-- If all nodes of a chain are silent, the last one decides. -/
theorem decide_default {chain : List (Node ε κ)} (some : chain ≠ [])
    (silent : ∀ node ∈ chain, Silent registry node) :
    decide ask registry config checking chain = pure (default (chain.getLast some)) := by
  induction chain with
  | nil => exact absurd rfl some
  | cons node rest ih =>
    obtain ⟨first, others⟩ := List.forall_mem_cons.mp silent
    rw [decide, ownAnswer_default first, pure_bind]
    dsimp only
    by_cases last : rest = []
    · subst last
      rfl
    · rw [if_neg (by simpa using last), ih last others, List.getLast_cons last]

/-- What all trees suggest by default. -/
def defaults (config : Config) (known : List Suggestion) (roots : List (Node ε κ)) : Suggestions :=
  if roots.any fun root => default root.innermost = .veto then .vetoed
  else .offered (addNew known (allOffers config roots))

/-- Whatever is suggested was offered. -/
theorem mem_defaults {roots : List (Node ε κ)} {suggestion : Suggestion}
    (member : suggestion ∈ (defaults config [] roots).toList) :
    suggestion ∈ allOffers config roots := by
  rw [defaults] at member
  split at member
  · cases member
  · exact ((mem_addNew.mp member).resolve_left List.not_mem_nil).mem

theorem defaults_cons (config : Config) (known : List Suggestion) (root : Node ε κ)
    (rest : List (Node ε κ)) : defaults config known (root :: rest) =
      if default root.innermost = .veto then .vetoed
      else defaults config (addNew known (offers config (default root.innermost))) rest := by
  rw [defaults, defaults, allOffers, List.flatMap_cons, addNew_append, List.any_cons]
  by_cases veto : default root.innermost = .veto
  · simp [veto]
  · simp [veto, allOffers]

theorem collect_default {roots : List (Node ε κ)} {known : List Suggestion}
    (silent : ∀ root ∈ roots, ∀ node ∈ root.openChain, Silent registry node) :
    collect ask registry config checking known roots = pure (defaults config known roots) := by
  induction roots generalizing known with
  | nil => rfl
  | cons root rest ih =>
    obtain ⟨first, others⟩ := List.forall_mem_cons.mp silent
    rw [collect, decide_default root.openChain_ne_nil first, pure_bind, ← Node.innermost,
      defaults_cons]
    cases default root.innermost with
    | veto => rfl
    | _ => exact ih others

/-- A literal is offered as a literal, and else there is a marker for what was not begun. -/
theorem mem_offers_default {node : Node ε κ} {suggestion : Suggestion}
    (offered : suggestion ∈ offers config (default node)) :
    (∃ text, node.kind = .literal text ∧ suggestion = .literal text node.text) ∨
      (node.kind = .run ∨ ∃ type, node.kind = .builtin type) ∧
        suggestion = .placeholder (config.marker (node.name.getD "value")) := by
  cases kind : node.kind with
  | literal text =>
    simp only [default, kind, offers, List.mem_singleton] at offered
    exact .inl ⟨text, rfl, offered⟩
  | builtin type =>
    simp only [default, kind] at offered
    split at offered
    · exact .inr ⟨.inr ⟨type, rfl⟩, List.mem_singleton.mp offered⟩
    · split at offered <;> cases offered
  | run =>
    simp only [default, kind] at offered
    split at offered
    · exact .inr ⟨.inl rfl, List.mem_singleton.mp offered⟩
    · cases offered
  | _ => simp [default, kind, offers] at offered

/-- Only literals are offered as literals, up to what was entered of them. -/
theorem literal_offer {node : Node ε κ} {suggestion : Suggestion} :
    suggestion ∈ offers config (default node) ∧ suggestion.kind = .literal ↔
      ∃ text, node.kind = .literal text ∧ suggestion = .literal text node.text := by
  constructor
  · rintro ⟨offered, literal⟩
    rcases mem_offers_default offered with shown | ⟨-, rfl⟩
    · exact shown
    · cases literal
  · rintro ⟨text, kind, rfl⟩
    exact ⟨by simp [default, kind, offers], rfl⟩

/-- What is left of offers that are literals is what innermost nodes lack, if these show all that they
cover. -/
theorem mem_remainders_offers {roots : List (Node ε κ)}
    (whole : ∀ root ∈ roots, root.innermost.text = root.innermost.covered) {rest : String} :
    rest ∈ Suggestion.remainders (allOffers config roots) ↔
      ∃ root ∈ roots, root.innermost.Lacks rest := by
  simp only [Suggestion.mem_remainders, allOffers, List.mem_flatMap]
  constructor
  · rintro ⟨suggestion, ⟨root, member, offered⟩, literal, left⟩
    obtain ⟨text, kind, rfl⟩ := literal_offer.mp ⟨offered, literal⟩
    exact ⟨root, member, text, kind, whole root member ▸ left⟩
  · rintro ⟨root, member, text, kind, left⟩
    rw [← whole root member] at left
    have ⟨offered, literal⟩ : .literal text root.innermost.text ∈
        offers config (default root.innermost) ∧ _ := literal_offer.mpr ⟨text, kind, rfl⟩
    exact ⟨_, ⟨root, member, offered⟩, literal, left⟩

end Completing

namespace Matching

/-- The rest of a literal, among what is expected and what is cut off. -/
def Sign.rest (rest : String) : Sign ε κ where
  wanted expected := expected = .literal rest
  sought nodes := ∃ leaf, Node.openLeaf? nodes = some leaf ∧ leaf.Lacks rest
  behind finished := by rw [Node.openLeaf?_behind finished]
  around {_ _ _ nodes} other := by
    rw [Node.openLeaf?_around]
    cases Node.openLeaf? nodes with
    | some leaf => rfl
    | none => simpa using Node.not_lacks other
  literal {start text missing} parts := by
    have leaf : (Node.cutOff (ε := ε) (κ := κ) start none (.literal text) []).Lacks rest ↔
        String.ofList missing = rest := Node.lacks_literal rfl (by simpa [Node.cutOff] using parts)
    simpa [Node.openLeaf?_leaf] using leaf
  characters {start name kind expected} plain other := by
    have leaf : ¬(Node.cutOff start name kind []).Lacks rest := Node.not_lacks plain
    simpa [Node.openLeaf?_leaf, other] using leaf

/-- The end of a script that is cut off lacks the rest of a literal just if this is expected. -/
theorem rest_expected {registry : Registry ε κ} {config : Config} {text : List Char}
    (defined : registry.undefinedReferences = [])
    (ended : (scriptRun registry config true text).2.failure.place.rest = []) {rest : String} :
    .literal rest ∈ (scriptRun registry config true text).2.failure.expected ↔
      ∃ nodes ∈ (scriptRun registry config true text).1.cut,
        (Node.cutOff ⟨0, text⟩ none .script nodes).innermost.Lacks rest := by
  have told : (scriptRun registry config true text).2.failure.Tells (· = .literal rest) ↔ _ :=
    told_iff_cut (Sign.rest rest) defined
  simp only [Failure.Tells, ended, true_and, exists_eq_right] at told
  refine told.trans (exists_congr fun nodes => and_congr_right fun _ => ?_)
  have around : (Sign.rest rest).sought [Node.cutOff ⟨0, text⟩ none .script nodes] ↔
      (Sign.rest rest).sought nodes := (Sign.rest rest).around (by simp)
  refine around.symm.trans ?_
  simp [Sign.rest, Node.openLeaf?_innermost]

end Matching

namespace Parser

open Completing (Silent FirstOf allOffers defaults collect)
open Matching (scriptRun)

variable {registry : Registry ε κ} {config : Config} {surroundings : σ} {text : String}

theorem outcome_suggestions (meaning : Meaning ε κ σ) (checking : Bool) (cursor : Nat) :
    outcome (suggestions meaning checking text cursor) registry config surroundings =
      (outcome (parseUnfinished text cursor) registry config surroundings).map fun roots =>
        ((collect meaning.ask registry config checking [] roots).run surroundings).1 := by
  rw [outcome_parseUnfinished, suggestions, parseUnfinished]
  simp only [bind_assoc]
  rw [outcome_begin]
  dsimp only
  cases Matching.unfinished registry config (textBefore text cursor) <;> rfl

theorem outcome_map {α β : Type} (pass : Pass ε κ σ α) (f : α → β) :
    outcome (do return f (← pass)) registry config surroundings =
      (outcome pass registry config surroundings).map f := by
  simp only [outcome, ExceptT.run_bind, StateT.run_bind]
  rcases pass.run.run ({ registry, config }, surroundings) with ⟨_ | _, _⟩ <;> rfl

/-- Every alternative in which a tree is incomplete is registered. -/
theorem openChain_registered {cursor : Nat} {roots : List (Node ε κ)}
    (found : outcome (parseUnfinished text cursor) registry config surroundings = .ok roots) :
    ∀ root ∈ roots, ∀ node ∈ root.openChain, ∀ chosen, node.alternative? = some chosen →
      chosen ∈ registry.allAlternatives := by
  intro root member node open' chosen
  obtain ⟨nodes, listed, rfl⟩ := exists_cut_of_root found member
  have cut : Matching.CutFrom registry (.ofText (textBefore text cursor))
      [.cutOff (.ofText (textBefore text cursor)) none .script nodes] :=
    (Matching.scriptRun_cuts registry config true _ nodes listed).around (by simp) (by simp)
  obtain ⟨below, incomplete⟩ := Node.mem_openChain rfl open'
  exact (cut.ended _ List.mem_cons_self node below incomplete).registered chosen

/-- Without completers, all trees suggest what they do by default. -/
theorem outcome_defaults (plain : registry.LeavesDefaults) (meaning : Meaning ε κ σ)
    (checking : Bool) (cursor : Nat) :
    outcome (suggestions meaning checking text cursor) registry config surroundings =
      (outcome (parseUnfinished text cursor) registry config surroundings).map
        (defaults config []) := by
  rw [outcome_suggestions]
  cases found : outcome (parseUnfinished text cursor) registry config surroundings with
  | error => rfl
  | ok roots =>
    have silent : ∀ root ∈ roots, ∀ node ∈ root.openChain, Silent registry node :=
      fun root member node open' chosen alternative =>
        plain chosen (openChain_registered found root member node open' chosen alternative)
    simp only [Except.map]
    rw [Completing.collect_default silent]
    rfl

/-- What is expected at the end of a text, what is offered there, and what is suggested. -/
structure Agrees (expected : List Expected) (offered suggested : List Suggestion) : Prop where
  /-- What is expected of literals is what is left of the offers. -/
  left : ∀ rest, .literal rest ∈ expected ↔ rest ∈ Suggestion.remainders offered
  /-- Of all offers with one completion, the first is suggested. -/
  first : ∀ suggestion, suggestion ∈ suggested ↔ FirstOf [] offered suggestion
  /-- What is left of the suggestions is expected. -/
  sound : ∀ rest ∈ Suggestion.remainders suggested, .literal rest ∈ expected
  /-- What is expected of literals ends the completion of a suggestion. -/
  ends : ∀ rest, .literal rest ∈ expected →
    ∃ suggestion ∈ suggested, ∃ front, suggestion.completion = front ++ rest
  /-- It is what is left of that suggestion, if no completion is offered in two ways. -/
  complete : (∀ one ∈ offered, ∀ other ∈ offered, one.completion = other.completion → one = other) →
    ∀ rest, .literal rest ∈ expected → rest ∈ Suggestion.remainders suggested

theorem agrees_addNew {expected : List Expected} {offered : List Suggestion}
    (same : ∀ rest, .literal rest ∈ expected ↔ rest ∈ Suggestion.remainders offered) :
    Agrees expected offered (Completing.addNew [] offered) := by
  have among {suggestion : Suggestion} :
      suggestion ∈ Completing.addNew [] offered ↔ FirstOf [] offered suggestion := by
    simp [Completing.mem_addNew]
  have first {suggestion : Suggestion} (member : suggestion ∈ offered) :
      ∃ first, FirstOf [] offered first ∧ first.completion = suggestion.completion :=
    (Completing.exists_firstOf member).resolve_left (by simp)
  refine ⟨same, fun _ => among, fun rest left => ?sound, fun rest wanted => ?ends,
    fun unique rest wanted => ?complete⟩
  case sound =>
    obtain ⟨suggestion, member, literal, left⟩ := Suggestion.mem_remainders.mp left
    exact (same rest).mpr (Suggestion.mem_remainders.mpr
      ⟨suggestion, (among.mp member).mem, literal, left⟩)
  case ends =>
    obtain ⟨suggestion, member, -, rfl⟩ := Suggestion.mem_remainders.mp ((same rest).mp wanted)
    obtain ⟨kept, isFirst, completion⟩ := first member
    exact ⟨kept, among.mpr isFirst, completion ▸ suggestion.exists_remainder⟩
  case complete =>
    obtain ⟨suggestion, member, literal, left⟩ :=
      Suggestion.mem_remainders.mp ((same rest).mp wanted)
    obtain ⟨kept, isFirst, completion⟩ := first member
    obtain rfl := unique kept isFirst.mem suggestion member completion
    exact Suggestion.mem_remainders.mpr ⟨kept, among.mpr isFirst, literal, left⟩

/-- If a text of less than `2 ^ 32` bytes is cut off and nothing is vetoed, then what is expected of
literals is what is left of the literals that unfinished trees offer, and the suggestions are the
first offers for each completion. -/
theorem expected_iff_offered (defined : registry.undefinedReferences = [])
    (plain : registry.LeavesDefaults) (meaning : Meaning ε κ σ)
    (small : Text.byteSize text.toList < 2 ^ 32) {failure : NoMatch}
    (failed : outcome (parse text) registry config surroundings = .error (.noMatch failure))
    (ended : failure.position = Text.byteSize text.toList)
    (allowed : outcome (checkCompletion meaning text (Text.byteSize text.toList)) registry config
      surroundings ≠ .ok .vetoed) :
    ∃ roots suggested,
      outcome (parseUnfinished text (Text.byteSize text.toList)) registry config surroundings =
          .ok roots ∧
        outcome (autocomplete meaning text (Text.byteSize text.toList)) registry config
            surroundings = .ok suggested ∧
          Agrees failure.expected (allOffers config roots) suggested := by
  rw [outcome_parse, Matching.parse_eq] at failed
  cases whole : (scriptRun registry config false text.toList).1.whole with
  | some nodes =>
    rw [whole] at failed
    cases failed
  | none =>
    obtain ⟨nothing, same⟩ := Matching.scriptRun_nothing whole
    rw [whole, same] at failed
    obtain rfl := ParseError.noMatch.inj (Except.error.inj failed)
    -- A failure at the end of the text says that something was cut off there.
    have cut : (scriptRun registry config true text.toList).1.cut ≠ [] := fun uncut =>
      Nat.ne_of_lt ((Matching.position_of_nothing nothing).2 defined uncut) ended
    let roots := (scriptRun registry config true text.toList).1.cut.map fun nodes =>
      Node.cutOff (.ofText text) none .script nodes
    have found : outcome (parseUnfinished text (Text.byteSize text.toList)) registry config
        surroundings = .ok roots := by
      rw [outcome_parseUnfinished, textBefore_end, Matching.unfinished_eq, if_neg (by simp [cut])]
      rfl
    have offered : defaults config [] roots =
        .offered (Completing.addNew [] (allOffers config roots)) := by
      rw [checkCompletion, outcome_map, outcome_defaults plain, found] at allowed
      rw [defaults, ite_eq_right_iff]
      intro veto
      rw [Except.map, Except.map, defaults, if_pos veto] at allowed
      exact absurd rfl allowed
    refine ⟨roots, _, found, ?_, agrees_addNew fun rest => ?_⟩
    · rw [autocomplete, outcome_map, outcome_defaults plain, found, Except.map, Except.map, offered]
      rfl
    · have inside := Matching.failure_inside registry config true text.toList nothing
      have atEnd := inside.rest_eq_nil_iff.mpr ended
      have whole (root : Node ε κ) (listed : root ∈ roots) :
          root.innermost.text = root.innermost.covered := by
        have shape := unfinishedTree_of_root found listed
        rw [textBefore_end] at shape
        exact shape.innermost_unclipped small
      rw [Completing.mem_remainders_offers whole]
      simp only [roots, List.mem_map, exists_exists_and_eq_and]
      exact Matching.rest_expected defined atEnd

/-- Two sentences that end in the same letters, one of them behind any other letter. -/
def repeats : Registry Empty Empty :=
  .ofItems [] [[.literal "aa" ⟨0, 0⟩],
    [.placeholder ⟨"c", .builtin .letter, .one, ⟨0, 0⟩⟩, .literal "aa" ⟨0, 0⟩]]

/-- There is nobody to be asked. -/
def nobody : Meaning Empty Empty Unit := ⟨nofun, nofun⟩

theorem expected_iff_offered_repeats :
    repeats.undefinedReferences = [] ∧ repeats.LeavesDefaults ∧ Text.byteSize "a".toList < 2 ^ 32 ∧
      ∃ failure roots suggested,
        outcome (parse "a") repeats {} () = .error (.noMatch failure) ∧
          failure.position = Text.byteSize "a".toList ∧
            outcome (checkCompletion nobody "a" (Text.byteSize "a".toList)) repeats {} () ≠
              .ok .vetoed ∧
              outcome (parseUnfinished "a" (Text.byteSize "a".toList)) repeats {} () = .ok roots ∧
                outcome (autocomplete nobody "a" (Text.byteSize "a".toList)) repeats {} () =
                  .ok suggested ∧
                  Agrees failure.expected (allOffers {} roots) suggested := by
  have defined : repeats.undefinedReferences = [] := by decide
  have plain : repeats.LeavesDefaults := by decide
  have small : Text.byteSize "a".toList < 2 ^ 32 := by decide
  obtain ⟨failure, failed, ended⟩ := exists_failure (outcome (parse "a") repeats {} ())
    (fun failure => failure.position = Text.byteSize "a".toList) (by decide +kernel)
  have allowed : outcome (checkCompletion nobody "a" (Text.byteSize "a".toList)) repeats {} () ≠
      .ok .vetoed := by decide +kernel
  obtain ⟨roots, suggested, found, offered, agrees⟩ := expected_iff_offered defined plain
    nobody small failed (of_decide_eq_true ended) allowed
  exact ⟨defined, plain, small, failure, roots, suggested, failed, of_decide_eq_true ended, allowed, found,
    offered, agrees⟩

/-- Behind the letter, the literal is entered in two ways: half of it, or nothing. Both ends of it
are expected, but only one of them is what is left of a suggestion. -/
theorem remainder_lost_repeats :
    repeats.undefinedReferences = [] ∧ repeats.LeavesDefaults ∧
      outcome (checkCompletion nobody "a" (Text.byteSize "a".toList)) repeats {} () =
          .ok .available ∧
        ∃ failure, outcome (parse "a") repeats {} () = .error (.noMatch failure) ∧
          failure.position = Text.byteSize "a".toList ∧ .literal "aa" ∈ failure.expected ∧
            outcome (autocomplete nobody "a" (Text.byteSize "a".toList)) repeats {} () =
                .ok [.literal "aa" "a"] ∧
              "aa" ∉ Suggestion.remainders [.literal "aa" "a"] := by
  obtain ⟨failure, failed, noted⟩ := exists_failure (outcome (parse "a") repeats {} ())
    (fun failure => failure.position = Text.byteSize "a".toList ∧
      Expected.literal "aa" ∈ failure.expected) (by decide +kernel)
  obtain ⟨ended, wanted⟩ := of_decide_eq_true noted
  exact ⟨by decide, by decide, by decide +kernel, failure, failed, ended, wanted,
    by decide +kernel, by decide⟩

end Parser
end SentenceGrammar
