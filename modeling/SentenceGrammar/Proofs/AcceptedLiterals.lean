import SentenceGrammar.Proofs.ContinuedAttempts
import SentenceGrammar.Proofs.Offers

/-!
# Accepting literals

A literal that is suggested was begun at the end of the text. If the text goes on with what is left
of it, then the attempt that was cut off reads the whole literal, and what comes behind it is
attempted at the new end. So the longer text can be completed again.

Two things could get in the way. If the sentence begins at the end of the text, then white space
there is in front of it and no part of it. And behind the literal, something hollow may have to be
repeated: no repetition has empty units, and nothing would be expected either.

## Main result

`literal_accepted`: a text that goes on with what is left of a suggested literal can be completed.
-/
namespace SentenceGrammar

open Text (isBlank)

variable {ε κ σ : Type}

namespace Node

/-- A leaf is its own innermost node, and shows its text. -/
theorem innermost_leaf {node : Node ε κ} (alone : node.children = []) :
    node.innermost = node ∧ node.leafText = node.text := by
  cases node
  cases alone
  exact ⟨by simp [innermost, openChain, openChainLast], rfl⟩

/-- What is innermost in the last child of a node is so in the node. -/
theorem innermost_parent {node last : Node ε κ} {front : List (Node ε κ)}
    (incomplete : last.complete = false) (children : node.children = front ++ [last]) :
    node.innermost = last.innermost := by
  have chain : node.openChain = node :: last.openChain := by
    rw [openChain_eq, children, openChainLast_append _ (List.cons_ne_nil _ _), openChainLast,
      if_neg (by simp [incomplete])]
  simp only [innermost, chain, List.getLast_cons last.openChain_ne_nil]

theorem leafText_parent {node last : Node ε κ} {front : List (Node ε κ)}
    (children : node.children = front ++ [last]) :
    node.leafText = leafTexts front ++ last.leafText := by
  have whole : node.leafText = leafTexts node.children := by
    cases node with
    | mk _ _ _ _ _ children' =>
      cases children' with
      | nil => simp at children
      | cons first rest => rfl
  simp [whole, children, leafTexts_append, leafTexts]

/-- An unfinished tree ends in its innermost node. -/
theorem Unfinished.ends {root : Node ε κ} (unfinished : root.Unfinished) :
    ∃ front, root.leafText = front ++ root.innermost.text := by
  induction unfinished with
  | leaf _ _ alone =>
    obtain ⟨self, shown⟩ := innermost_leaf alone
    exact ⟨"", by rw [self, shown, String.empty_append]⟩
  | parent _ children _ inner ih =>
    obtain ⟨front, shown⟩ := ih
    rw [innermost_parent inner.incomplete children, leafText_parent children, shown]
    exact ⟨_, String.append_assoc.symm⟩

/-- An innermost node of another kind is further in. -/
theorem openLeaf?_inside {start : Cursor} {name : Option String} {kind : NodeKind ε κ}
    {nodes : List (Node ε κ)} (other : (cutOff start name kind nodes).innermost.kind ≠ kind) :
    openLeaf? nodes = some (cutOff start name kind nodes).innermost := by
  have around := openLeaf?_around start name kind nodes
  rw [openLeaf?_innermost] at around
  cases inner : openLeaf? nodes with
  | some leaf => rw [Option.some.inj around, inner, Option.getD_some]
  | none =>
    rw [Option.some.inj around, inner, Option.getD_none] at other
    exact absurd rfl other

end Node

namespace Matching

open Enumerate

variable {registry : Registry ε κ} {config : Config} {front more : List Char}

/-- If a text goes on with the rest of a literal that is cut off at its end, then it can be
completed. -/
theorem completes_of_cut_literal (sensible : Sensible registry)
    (acyclic : NoLeftRecursion registry.alternatives config (front ++ more))
    (unblank : NoLeadingBlank registry config) {nodes : List (Node ε κ)}
    (cut : nodes ∈ (scriptRun registry config true front).1.cut) {leaf : Node ε κ} {text : String}
    (last : Node.openLeaf? nodes = some leaf) (kind : leaf.kind = .literal text)
    (parts : text.toList = leaf.covered.toList ++ more) (some : more ≠ []) :
    ¬((scriptRun registry config true (front ++ more)).1.cut.isEmpty = true ∧
      (scriptRun registry config true (front ++ more)).1.whole.isNone = true) := by
  have noMutual := acyclic.noMutual registry.alternatives config
  obtain ⟨further, same, tried⟩ := (scriptRun_tries noMutual.beginning true).tried (.inl rfl)
  rw [same, List.nil_append] at cut
  obtain ⟨attempt, ⟨count, place, -, -, reads, tries⟩, ended, leaf'⟩ := tried.made nodes cut
  obtain rfl := Option.some.inj (last.symm.trans leaf')
  refine completes_of_attempt sensible acyclic unblank reads tries ended (.literal kind ?_) some
  simpa [Attempt.leaf, Node.cutOff] using parts

end Matching

namespace Parser

open Matching (NoLeftRecursion NoLeadingBlank)

/-- A literal is suggested because some unfinished tree ends in it. -/
theorem suggested_literal {registry : Registry ε κ} {config : Config} {surroundings : σ}
    {text : String} {cursor : Nat} (plain : registry.LeavesDefaults) (meaning : Meaning ε κ σ)
    {suggestions : List Suggestion}
    (offered : outcome (autocomplete meaning text cursor) registry config surroundings =
      .ok suggestions) {suggestion : Suggestion} (member : suggestion ∈ suggestions)
    (literal : suggestion.kind = .literal) :
    ∃ roots, outcome (parseUnfinished text cursor) registry config surroundings = .ok roots ∧
      ∃ root ∈ roots, ∃ begun, root.innermost.kind = .literal begun ∧
        suggestion = .literal begun root.innermost.text := by
  rw [autocomplete, outcome_map, outcome_defaults plain] at offered
  cases found : outcome (parseUnfinished text cursor) registry config surroundings with
  | error failure =>
    rw [found] at offered
    cases offered
  | ok roots =>
    rw [found] at offered
    obtain rfl := Except.ok.inj offered
    obtain ⟨root, listed, among⟩ := List.mem_flatMap.mp (Completing.mem_defaults member)
    obtain ⟨begun, kind, same⟩ := Completing.literal_offer.mp ⟨among, literal⟩
    exact ⟨roots, rfl, root, listed, begun, kind, same⟩

/-- In every grammar whose types are all defined, in which no type recurs in itself at one place,
nothing hollow has to be repeated, and nothing that comes first in a sentence takes white space:
whoever accepts a literal that is suggested behind less than `2 ^ 32` bytes gets a text that can be
completed. -/
theorem literal_accepted {registry : Registry ε κ} {config : Config} {surroundings : σ}
    (wellFormed : registry.WellFormed) (solid : registry.RepeatsSolid)
    (defined : registry.undefinedReferences = []) (plain : registry.LeavesDefaults)
    (acyclic : ∀ text, NoLeftRecursion registry.alternatives config text)
    (unblank : NoLeadingBlank registry config) (meaning : Meaning ε κ σ) {text : String}
    {cursor : Nat} (small : Text.byteSize (textBefore text cursor).toList < 2 ^ 32)
    {suggestions : List Suggestion}
    (offered : outcome (autocomplete meaning text cursor) registry config surroundings =
      .ok suggestions) :
    ∀ suggestion ∈ suggestions, suggestion.kind = .literal →
      (∃ front, textBefore text cursor = front ++ suggestion.entered) ∧
        suggestion.completion = suggestion.entered ++ suggestion.remainder ∧
          ∃ roots, outcome (parseUnfinished (textBefore text cursor ++ suggestion.remainder)
              (Text.byteSize (textBefore text cursor ++ suggestion.remainder).toList))
            registry config surroundings = .ok roots := by
  intro suggestion member literal
  obtain ⟨roots, found, root, listed, begun, kind, rfl⟩ :=
    suggested_literal plain meaning offered member literal
  have shape := unfinishedTree_of_root found listed
  -- The innermost node is incomplete, so some of the literal is left.
  obtain ⟨below, incomplete⟩ := shape.innermost_below
  obtain ⟨⟨rest, parts⟩, short⟩ := (shape.ended _ below incomplete).2 begun kind
  have some : rest ≠ [] := by
    rintro rfl
    exact short (String.toList_inj.mp ((List.append_nil _).symm.trans parts))
  have remainder : (Suggestion.literal begun root.innermost.text).remainder = String.ofList rest :=
    Suggestion.remainder_literal (by rw [String.toList_ofList, ← parts])
  rw [remainder]
  refine ⟨?entered, ?whole, ?accepted⟩
  case entered =>
    obtain ⟨front, shown⟩ := shape.chain.ends
    refine ⟨front, ?_⟩
    rw [← String.ofList_toList (s := textBefore text cursor), ← shape.leaves small, shown]
    rfl
  case whole =>
    rw [← String.toList_inj, String.toList_append, String.toList_ofList]
    exact parts.symm
  case accepted =>
    rw [outcome_parseUnfinished, Matching.unfinished_eq] at found
    split at found
    · cases found
    · obtain rfl := Except.ok.inj found
      obtain ⟨nodes, cut, rfl⟩ := List.mem_map.mp listed
      have other : (Node.cutOff (.ofText (textBefore text cursor)) none .script
          nodes).innermost.kind ≠ .script := by simp [kind]
      have last := Node.openLeaf?_inside other
      rw [shape.innermost_unclipped small] at parts
      have going := Matching.completes_of_cut_literal ⟨wellFormed, solid, defined⟩ (acyclic _) unblank
        cut last kind parts.symm some
      rw [outcome_parseUnfinished, textBefore_end, Matching.unfinished_eq, String.toList_append,
        String.toList_ofList, if_neg going]
      exact ⟨_, rfl⟩

/-- Two literals, and between them a type whose only alternative is empty. -/
def hollowInside (quantifier : Quantifier) : Registry Empty Empty :=
  .ofItems [("t", [[]])] [[.literal "ab" ⟨0, 0⟩,
    .placeholder ⟨"x", .named "t", quantifier, ⟨0, 0⟩⟩, .literal "c" ⟨0, 0⟩]]

theorem hollowInside_acyclic (quantifier : Quantifier) (text : List Char) :
    NoLeftRecursion (hollowInside quantifier).alternatives {} text := by
  intro pair _ again
  obtain ⟨_, ⟨chosen, member, asked⟩, -⟩ := Relation.TransGen.head'_iff.mp again
  obtain ⟨entry, listed, -, known⟩ := Registry.mem_ofItems member
  obtain rfl := List.mem_singleton.mp listed
  rw [List.mem_singleton.mp known] at asked
  cases asked

theorem hollowInside_unblank (quantifier : Quantifier) :
    NoLeadingBlank (hollowInside quantifier) {} := by
  intro sentence member item opens
  obtain rfl := List.mem_singleton.mp member
  rw [opens.eq_literal (by decide)]
  simp [Item.TakesBlank, Text.isBlank]

/-- The literals are not empty, and only the type between them depends on the quantifier. -/
theorem hollowInside_items {quantifier : Quantifier} {Holds : Item → Prop}
    (literal : ∀ text span, text ≠ "" → Holds (.literal text span))
    (inside : Holds (.placeholder ⟨"x", .named "t", quantifier, ⟨0, 0⟩⟩)) :
    ∀ chosen ∈ (hollowInside quantifier).allAlternatives, ∀ item ∈ chosen.pattern.items,
      Holds item := by
  have known : (hollowInside quantifier).allAlternatives.flatMap (·.pattern.items) =
      [.literal "ab" ⟨0, 0⟩, .placeholder ⟨"x", .named "t", quantifier, ⟨0, 0⟩⟩,
        .literal "c" ⟨0, 0⟩] := rfl
  intro chosen member item listed
  have among := known ▸ List.mem_flatMap.mpr ⟨chosen, member, listed⟩
  simp only [List.mem_cons, List.not_mem_nil, or_false] at among
  obtain rfl | rfl | rfl := among
  · exact literal _ _ (by decide)
  · exact inside
  · exact literal _ _ (by decide)

theorem hollowInside_wellFormed {quantifier : Quantifier}
    (satisfiable : quantifier.Satisfiable) : (hollowInside quantifier).WellFormed :=
  ⟨by simp [hollowInside, Registry.ofItems], hollowInside_items (fun _ _ some => some) satisfiable⟩

theorem satisfiable_upToTwo {least : Nat} (few : least ≤ 2) :
    Quantifier.Satisfiable ⟨least, some 2⟩ := by
  rintro most ⟨⟩
  exact ⟨Nat.two_pos, few⟩

theorem literal_accepted_hollowInside :
    (hollowInside ⟨0, some 2⟩).WellFormed ∧ (hollowInside ⟨0, some 2⟩).RepeatsSolid ∧
      (hollowInside ⟨0, some 2⟩).undefinedReferences = [] ∧
        (hollowInside ⟨0, some 2⟩).LeavesDefaults ∧
          (∀ text, NoLeftRecursion (hollowInside ⟨0, some 2⟩).alternatives {} text) ∧
            NoLeadingBlank (hollowInside ⟨0, some 2⟩) {} ∧
              Text.byteSize (textBefore "a c" 1).toList < 2 ^ 32 ∧
              outcome (autocomplete nobody "a c" 1) (hollowInside ⟨0, some 2⟩) {} () =
                  .ok [.literal "ab" "a"] ∧
                ∃ roots, outcome (parseUnfinished "ab" 2) (hollowInside ⟨0, some 2⟩) {} () =
                  .ok roots := by
  have wellFormed := hollowInside_wellFormed (satisfiable_upToTwo (Nat.zero_le 2))
  have solid : (hollowInside ⟨0, some 2⟩).RepeatsSolid :=
    hollowInside_items (fun _ _ _ repeated => repeated.elim)
      fun repeated => absurd repeated.2 (Nat.lt_irrefl 0)
  have defined : (hollowInside ⟨0, some 2⟩).undefinedReferences = [] := by decide
  have plain : (hollowInside ⟨0, some 2⟩).LeavesDefaults := by decide
  have acyclic := hollowInside_acyclic ⟨0, some 2⟩
  have unblank := hollowInside_unblank ⟨0, some 2⟩
  have small : Text.byteSize (textBefore "a c" 1).toList < 2 ^ 32 := by decide
  have offered : outcome (autocomplete nobody "a c" 1) (hollowInside ⟨0, some 2⟩) {} () =
      .ok [.literal "ab" "a"] := by decide +kernel
  have ⟨_, _, accepted⟩ := literal_accepted wellFormed solid defined plain acyclic unblank nobody
    small offered _ List.mem_cons_self rfl
  exact ⟨wellFormed, solid, defined, plain, acyclic, unblank, small, offered, accepted⟩

/-- Nothing is read as the type, so it is not read twice, and nothing is expected of it either. -/
theorem literal_refused_hollowInside :
    (hollowInside ⟨2, some 2⟩).WellFormed ∧
      (hollowInside ⟨2, some 2⟩).undefinedReferences = [] ∧
        (hollowInside ⟨2, some 2⟩).LeavesDefaults ∧
          (∀ text, NoLeftRecursion (hollowInside ⟨2, some 2⟩).alternatives {} text) ∧
            NoLeadingBlank (hollowInside ⟨2, some 2⟩) {} ∧
              outcome (autocomplete nobody "a" 1) (hollowInside ⟨2, some 2⟩) {} () =
                  .ok [.literal "ab" "a"] ∧
                textBefore "a" 1 ++ (Suggestion.literal "ab" "a").remainder = "ab" ∧
                  ¬∃ roots, outcome (parseUnfinished "ab" 2) (hollowInside ⟨2, some 2⟩) {} () =
                    .ok roots := by
  refine ⟨hollowInside_wellFormed (satisfiable_upToTwo (Nat.le_refl 2)), by decide, by decide,
    hollowInside_acyclic _, hollowInside_unblank _, by decide +kernel, by decide, ?_⟩
  rintro ⟨roots, completes⟩
  have failed : (outcome (parseUnfinished "ab" 2) (hollowInside ⟨2, some 2⟩) {} ()
      ).toOption.isNone = true := by decide +kernel
  rw [completes] at failed
  cases failed

end Parser
end SentenceGrammar
