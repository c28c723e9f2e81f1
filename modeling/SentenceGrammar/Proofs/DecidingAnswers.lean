import SentenceGrammar.Proofs.Offers

/-!
# Deciding answers

Every unfinished tree has one deciding answer. All of them together settle what is suggested:
nothing if one of them is a veto, and otherwise what they offer, once for each completion. Completers
may have effects on their surroundings. Still, two runs come to the same if at every node their
answers are the same, in whatever surroundings the answers before have left.

## Main result

`checkCompletion_agrees`: checking whether anything can be suggested agrees with suggesting it.
-/
namespace SentenceGrammar

variable {ε κ σ α β : Type}

namespace Completing

/-! ### Two runs -/

/-- From surroundings that are alike, both have the same result, and they leave surroundings that
are alike again. -/
def InStep (alike : σ → σ → Prop) (one other : StateM σ α) : Prop :=
  ∀ here there, alike here there →
    (one.run here).1 = (other.run there).1 ∧ alike (one.run here).2 (other.run there).2

variable {alike : σ → σ → Prop}

theorem InStep.pure (result : α) : InStep alike (Pure.pure result) (Pure.pure result) :=
  fun _ _ same => ⟨rfl, same⟩

theorem InStep.bind {one other : StateM σ α} {next next' : α → StateM σ β}
    (first : InStep alike one other)
    (further : ∀ result, InStep alike (next result) (next' result)) :
    InStep alike (one >>= next) (other >>= next') := by
  intro here there same
  obtain ⟨result, after⟩ := first here there same
  change ((next (one.run here).1).run (one.run here).2).1 =
      ((next' (other.run there).1).run (other.run there).2).1 ∧
    alike ((next (one.run here).1).run (one.run here).2).2
      ((next' (other.run there).1).run (other.run there).2).2
  rw [result]
  exact further _ _ _ after

/-- The answer of the completer in charge of an alternative. That nobody is in charge is as if
someone deferred. -/
def charged (ask : Ask ε κ σ) (registry : Registry ε κ) (checking : Bool)
    (chosen : Alternative ε κ) (node : Node ε κ) : StateM σ Completion :=
  match completerOf? registry chosen with
  | some completer => ask completer node checking
  | none => pure .defer

section

variable {ask ask' : Ask ε κ σ} {registry registry' : Registry ε κ} {config : Config}
  {checking checking' : Bool}

/-- A node answers as the completer in charge does, unless its alternative is to be inserted
whole. -/
theorem ownAnswer_alternative {node : Node ε κ} {chosen : Alternative ε κ}
    (alternative : node.alternative? = some chosen) :
    ownAnswer ask registry config checking node = do
      let answer ← charged ask registry checking chosen node
      if answer = .defer ∧ chosen.insertWhole ∧ node.text = "" then
        return .suggest [.whole config chosen.pattern.items]
      else return answer := by
  simp only [ownAnswer, alternative, charged]
  cases completerOf? registry chosen <;> rfl

/-- If all nodes of a chain answer in step, so does the chain. -/
theorem decide_inStep {chain : List (Node ε κ)}
    (own : ∀ node ∈ chain, InStep alike (ownAnswer ask registry config checking node)
      (ownAnswer ask' registry' config checking' node)) :
    InStep alike (decide ask registry config checking chain)
      (decide ask' registry' config checking' chain) := by
  induction chain with
  | nil => exact .pure _
  | cons node rest ih =>
    obtain ⟨first, others⟩ := List.forall_mem_cons.mp own
    rw [decide, decide]
    apply first.bind
    intro answer
    cases answer with
    | defer =>
      -- Behind the last node its default decides, which asks nobody.
      by_cases last : rest.isEmpty = true
      · simp only [if_pos last]
        exact .pure _
      · simp only [if_neg last]
        exact ih others
    | _ => exact .pure _

theorem collect_inStep {roots : List (Node ε κ)} (known : List Suggestion)
    (own : ∀ root ∈ roots, ∀ node ∈ root.openChain,
      InStep alike (ownAnswer ask registry config checking node)
        (ownAnswer ask' registry' config checking' node)) :
    InStep alike (collect ask registry config checking known roots)
      (collect ask' registry' config checking' known roots) := by
  induction roots generalizing known with
  | nil => exact .pure _
  | cons root rest ih =>
    obtain ⟨first, others⟩ := List.forall_mem_cons.mp own
    rw [collect, collect]
    apply (decide_inStep first).bind
    intro answer
    cases answer with
    | veto => exact .pure _
    | _ => exact ih _ others

/-- A node answers in step if those in charge of its alternative do. -/
theorem ownAnswer_inStep {node : Node ε κ}
    (answers : ∀ chosen, node.alternative? = some chosen →
      InStep alike (charged ask registry checking chosen node)
        (charged ask' registry' checking' chosen node)) :
    InStep alike (ownAnswer ask registry config checking node)
      (ownAnswer ask' registry' config checking' node) := by
  cases alternative : node.alternative? with
  | none =>
    rw [ownAnswer, ownAnswer, alternative]
    exact .pure _
  | some chosen =>
    rw [ownAnswer_alternative alternative, ownAnswer_alternative alternative]
    apply (answers chosen alternative).bind
    intro answer
    -- Whether the whole alternative is inserted depends on the answer alone.
    split <;> exact .pure _

/-- Two completers that answer in step are in charge of an alternative, or nobody is. -/
theorem charged_inStep {node : Node ε κ} {chosen : Alternative ε κ}
    (answers : ∀ completer, completerOf? registry chosen = some completer →
      InStep alike (ask completer node checking) (ask' completer node checking')) :
    InStep alike (charged ask registry checking chosen node)
      (charged ask' registry checking' chosen node) := by
  rw [charged, charged]
  cases charge : completerOf? registry chosen with
  | none => exact .pure _
  | some completer => exact answers completer charge

end

/-! ### Settling -/

/-- The deciding answers of all trees, each of them given in the surroundings that the ones before
have left. -/
def decisions (ask : Ask ε κ σ) (registry : Registry ε κ) (config : Config) (checking : Bool)
    (roots : List (Node ε κ)) : StateM σ (List Completion) :=
  roots.mapM fun root => decide ask registry config checking root.openChain

/-- What deciding answers come to, behind suggestions that are known. -/
def settle (config : Config) (known : List Suggestion) (answers : List Completion) : Suggestions :=
  if .veto ∈ answers then .vetoed
  else .offered (addNew known (answers.flatMap (offers config)))

theorem settle_cons (config : Config) (known : List Suggestion) {answer : Completion}
    (allowed : answer ≠ .veto) (answers : List Completion) :
    settle config known (answer :: answers) =
      settle config (addNew known (offers config answer)) answers := by
  simp only [settle, List.mem_cons, allowed.symm, false_or, List.flatMap_cons, addNew_append]

section

variable (ask : Ask ε κ σ) (registry : Registry ε κ) (config : Config) (checking : Bool)

theorem decisions_cons (root : Node ε κ) (rest : List (Node ε κ)) (surroundings : σ) :
    ((decisions ask registry config checking (root :: rest)).run surroundings).1 =
      let first := (decide ask registry config checking root.openChain).run surroundings
      first.1 :: ((decisions ask registry config checking rest).run first.2).1 := by
  rw [decisions, List.mapM_cons]
  rfl

theorem collect_cons (known : List Suggestion) (root : Node ε κ) (rest : List (Node ε κ))
    (surroundings : σ) :
    ((collect ask registry config checking known (root :: rest)).run surroundings).1 =
      let first := (decide ask registry config checking root.openChain).run surroundings
      if first.1 = .veto then .vetoed
      else ((collect ask registry config checking (addNew known (offers config first.1)) rest).run
        first.2).1 := by
  rw [collect, StateT.run_bind]
  dsimp only
  generalize (decide ask registry config checking root.openChain).run surroundings = first
  obtain ⟨answer, left⟩ := first
  cases answer <;> rfl

/-- The suggestions of all trees are what their deciding answers come to. Nobody is asked any more
behind a veto, but that makes no difference. -/
theorem collect_settles (roots : List (Node ε κ)) (known : List Suggestion) (surroundings : σ) :
    ((collect ask registry config checking known roots).run surroundings).1 =
      settle config known ((decisions ask registry config checking roots).run surroundings).1 := by
  induction roots generalizing known surroundings with
  | nil => rfl
  | cons root rest ih =>
    rw [collect_cons, decisions_cons]
    dsimp only
    split
    next veto => rw [settle, if_pos (by simp [veto])]
    next allowed => rw [ih, settle_cons config known allowed]

end

theorem settle_vetoed {config : Config} {known : List Suggestion} {answers : List Completion} :
    (settle config known answers).status = .vetoed ↔ .veto ∈ answers := by
  rw [settle]
  split
  next veto => simp [Suggestions.status, veto]
  next allowed =>
    cases addNew known (answers.flatMap (offers config)) <;> simp [Suggestions.status, allowed]

/-! ### Completers without effects -/

/-- Completers that leave their surroundings alone. -/
def answering (answer : κ → Node ε κ → Bool → Completion) : Ask ε κ σ :=
  fun completer node checking => pure (answer completer node checking)

/-- The answer of one node: that of the completer in charge, or, if there is none or it defers, the
whole alternative if it is to be inserted as such and nothing of it was typed. -/
def nodeAnswer (answer : κ → Node ε κ → Completion) (registry : Registry ε κ) (config : Config)
    (node : Node ε κ) : Completion :=
  match node.alternative? with
  | none => .defer
  | some chosen =>
    let given := ((completerOf? registry chosen).map fun completer => answer completer node).getD
      .defer
    if given = .defer ∧ chosen.insertWhole ∧ node.text = "" then
      .suggest [.whole config chosen.pattern.items]
    else given

/-- The deciding answer of a tree: the first one in its open chain that is no deferral, and if there
is none, the default of its innermost node. -/
def verdict (answer : κ → Node ε κ → Completion) (registry : Registry ε κ) (config : Config)
    (root : Node ε κ) : Completion :=
  ((root.openChain.map (nodeAnswer answer registry config)).find? (· ≠ .defer)).getD
    (default root.innermost)

section

variable (answer : κ → Node ε κ → Bool → Completion) (registry : Registry ε κ) (config : Config)
  (checking : Bool)

theorem ownAnswer_answering (node : Node ε κ) :
    ownAnswer (answering (σ := σ) answer) registry config checking node =
      pure (nodeAnswer (answer · · checking) registry config node) := by
  cases alternative : node.alternative? with
  | none => rw [ownAnswer, nodeAnswer, alternative]
  | some chosen =>
    simp only [ownAnswer_alternative alternative, nodeAnswer, alternative, charged]
    cases completerOf? registry chosen with
    | none =>
      simp only [pure_bind, Option.map_none, Option.getD_none]
      split <;> rfl
    | some completer =>
      simp only [answering, pure_bind, Option.map_some, Option.getD_some]
      split <;> rfl

theorem decide_answering {chain : List (Node ε κ)} (some : chain ≠ []) :
    decide (answering (σ := σ) answer) registry config checking chain =
      pure (((chain.map (nodeAnswer (answer · · checking) registry config)).find?
        (· ≠ .defer)).getD (default (chain.getLast some))) := by
  induction chain with
  | nil => exact absurd rfl some
  | cons node rest ih =>
    rw [decide, ownAnswer_answering, pure_bind, List.map_cons, List.find?_cons]
    cases own : nodeAnswer (answer · · checking) registry config node with
    | defer =>
      by_cases last : rest = []
      · subst last
        rfl
      · simp only [List.isEmpty_iff, if_neg last]
        rw [ih last, List.getLast_cons last]
        rfl
    | _ => rfl

/-- Without effects, the deciding answers do not depend on each other. -/
theorem decisions_answering (roots : List (Node ε κ)) :
    decisions (answering (σ := σ) answer) registry config checking roots =
      pure (roots.map (verdict (answer · · checking) registry config)) := by
  rw [decisions]
  induction roots with
  | nil => rfl
  | cons root rest ih =>
    rw [List.mapM_cons, decide_answering _ _ _ _ root.openChain_ne_nil, pure_bind, ih]
    rfl

end

end Completing

namespace Parser

open Completing (InStep decisions settle settle_vetoed collect_settles)

variable {alike : σ → σ → Prop} {meaning : Meaning ε κ σ} {registry : Registry ε κ}
  {config : Config} {here there surroundings : σ} {text : String} {cursor : Nat}

/-- Some unfinished tree of the text before the cursor is decided by a veto. -/
def Vetoes (meaning : Meaning ε κ σ) (checking : Bool) (registry : Registry ε κ) (config : Config)
    (surroundings : σ) (text : String) (cursor : Nat) : Prop :=
  ∃ roots, outcome (parseUnfinished text cursor) registry config surroundings = .ok roots ∧
    .veto ∈ ((decisions meaning.ask registry config checking roots).run surroundings).1

/-- Suggestions and their failures do not depend on surroundings or on the flag if the completers
answer in step. -/
theorem suggestions_inStep
    (indifferent : ∀ completer node,
      InStep alike (meaning.ask completer node true) (meaning.ask completer node false))
    (same : alike here there) :
    outcome (suggestions meaning true text cursor) registry config here =
      outcome (suggestions meaning false text cursor) registry config there := by
  rw [outcome_suggestions, outcome_suggestions, outcome_parseUnfinished, outcome_parseUnfinished]
  congr 1
  funext roots
  apply (Completing.collect_inStep [] _ here there same).1
  intro root member node inner
  exact Completing.ownAnswer_inStep fun chosen _ =>
    Completing.charged_inStep fun completer _ => indifferent completer node

theorem vetoes_iff (checking : Bool) :
    Vetoes meaning checking registry config surroundings text cursor ↔
      ∃ found, outcome (suggestions meaning checking text cursor) registry config surroundings =
        .ok found ∧ found.status = .vetoed := by
  rw [outcome_suggestions, Vetoes]
  cases outcome (parseUnfinished text cursor) registry config surroundings with
  | error => simp [Except.map]
  | ok roots => simp [Except.map, collect_settles, settle_vetoed]

/-- If the completers answer in the same way whether they are only asked for the possibility of
completion or not, checking for it tells what comes of it. Both fail in the same way; there is
something to suggest just if suggestions are returned; and if a veto decides some tree, which it
does in both cases or in none, nothing is returned. -/
theorem checkCompletion_agrees
    (indifferent : ∀ completer node,
      InStep alike (meaning.ask completer node true) (meaning.ask completer node false))
    (same : alike here there) (registry : Registry ε κ) (config : Config) (text : String)
    (cursor : Nat) :
    let checked := outcome (checkCompletion meaning text cursor) registry config here
    let completed := outcome (autocomplete meaning text cursor) registry config there
    (∀ error, checked = .error error ↔ completed = .error error) ∧
      (checked = .ok .available ↔ ∃ first rest, completed = .ok (first :: rest)) ∧
      (checked = .ok .vetoed ↔ Vetoes meaning true registry config here text cursor) ∧
      (Vetoes meaning true registry config here text cursor ↔
        Vetoes meaning false registry config there text cursor) ∧
      (checked = .ok .vetoed → completed = .ok []) := by
  intro checked completed
  have sameFound : outcome (suggestions meaning true text cursor) registry config here =
      outcome (suggestions meaning false text cursor) registry config there :=
    suggestions_inStep indifferent same
  have onCheck : checked = _ := outcome_map _ _
  have onComplete : completed = _ := outcome_map _ _
  rw [vetoes_iff, vetoes_iff, onCheck, onComplete, sameFound]
  cases outcome (suggestions meaning false text cursor) registry config there with
  | error => simp [Except.map]
  | ok found =>
    cases found with
    | vetoed => simp [Except.map, Suggestions.status, Suggestions.toList]
    | offered suggestions =>
      cases suggestions <;> simp [Except.map, Suggestions.status, Suggestions.toList]

/-- Lengths in one of two units, for the second of which another name is suggested. -/
def lengths : Registry Empty Completion where
  types := [⟨"unit", [⟨some "unit", ⟨"mm", [.literal "mm" ⟨0, 0⟩]⟩, none, none, false⟩,
    ⟨some "unit", ⟨"px", [.literal "px" ⟨0, 0⟩]⟩, none, some (.suggest [.literal "pixel" ""]),
      false⟩]⟩]
  sentences := [⟨none, ⟨"", [.placeholder ⟨"size", .builtin .int, .one, ⟨0, 0⟩⟩,
    .literal " " ⟨0, 0⟩, .type "unit"]⟩, none, none, false⟩]

/-- Every completer is its own answer, and it is written down whether it was only checked for. -/
def noting : Meaning Empty Completion (List Bool) where
  program := nofun
  ask completer _ checking := do
    modify (checking :: ·)
    return completer

/-- With a blank behind the number the unit is open, and before it the number is. The surroundings
of both runs differ, as the completers do not look at them. -/
theorem checkCompletion_agrees_lengths :
    (∀ completer node, InStep (fun _ _ => True) (noting.ask completer node true)
      (noting.ask completer node false)) ∧
    outcome (checkCompletion noting "3 " 9) lengths {} [] = .ok .available ∧
    (∃ first rest, outcome (autocomplete noting "3 " 9) lengths {} [true] = .ok (first :: rest)) ∧
    Vetoes noting true lengths {} [] "3 " 1 ∧
    outcome (autocomplete noting "3 " 1) lengths {} [true] = .ok [] := by
  have indifferent : ∀ completer node, InStep (fun _ _ => True) (noting.ask completer node true)
      (noting.ask completer node false) := fun _ _ _ _ _ => ⟨rfl, trivial⟩
  have agrees := @checkCompletion_agrees _ _ _ _ _ [] [true] indifferent trivial lengths {}
  have available : outcome (checkCompletion noting "3 " 9) lengths {} [] = .ok .available := by
    decide +kernel
  have vetoed : outcome (checkCompletion noting "3 " 1) lengths {} [] = .ok .vetoed := by
    decide +kernel
  obtain ⟨-, some, -, -, -⟩ := agrees "3 " 9
  obtain ⟨-, -, vetoes, -, nothing⟩ := agrees "3 " 1
  exact ⟨indifferent, available, some.mp available, vetoes.mp vetoed, nothing vetoed⟩

end Parser
end SentenceGrammar
