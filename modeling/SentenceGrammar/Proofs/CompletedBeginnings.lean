import SentenceGrammar.Proofs.CutLeaves
import SentenceGrammar.Proofs.ScriptFronts
import SentenceGrammar.Proofs.SentenceOrder

/-!
# Completing the beginnings of a text

Every beginning of a text that is parsed can be completed. Unless two types recur in each other at
one place, one of the completions goes along the tree of the whole text: it breaks off in the leaf
that the end of the beginning cuts through.

## Main result

`beginning_completed`: what completing a beginning of a parsed text finds.
-/
namespace SentenceGrammar
namespace Matching

variable {ε κ : Type} {registry : Registry ε κ} {config : Config} {front more : List Char}

/-! ### The sentence at the end of the beginning -/

/-- Whatever is visited in the whole text and not behind the beginning is visited in the beginning. -/
theorem visit_beginning
    (noMutual : NoMutualLeftRecursion registry.alternatives config (front ++ more)) {count : Nat}
    {visit : Visit} (visited : visit ∈ canonicalVisits registry config (front ++ more) count)
    (early : visit.1.offset ≤ Text.byteSize front) :
    ∃ earlier ∈ canonicalVisits registry config front count, visit = earlier.continued more := by
  obtain ⟨place, inside, same⟩ := (canonicalVisits_inside visited).exists_continued early
  have common : visit.1.offset < commonLimit front more := by
    rcases Nat.lt_or_eq_of_le early with before | last
    · exact Nat.lt_of_lt_of_le before le_commonLimit
    -- No white space follows a place that is visited.
    · have settled := (reachable_of_mem_visitsAfter (Cursor.skipWhile_skipWhile _ _)
        visited).settled (Cursor.skipWhile_skipWhile _ _)
      have passes := Cursor.passes_skipWhile Text.isBlank visit.1
      have nothing := passes.word_eq_nil_iff.mpr (congrArg Cursor.offset settled)
      rw [same] at last
      rw [same, Cursor.continued_rest, inside.rest_eq_nil_iff.mpr last, List.nil_append] at nothing
      rw [commonLimit, if_pos nothing]
      exact Nat.lt_succ_of_le early
  exact (canonicalVisits_restrict noMutual count).1.exists_mem visited common

/-- Where a sentence of the whole text begins that is not behind the beginning, a sentence of the
beginning may begin. -/
theorem reads_beginning
    (noMutual : NoMutualLeftRecursion registry.alternatives config (front ++ more)) {count : Nat}
    {place : Cursor} (reads : Reads registry config (front ++ more) count place)
    (early : place.offset ≤ Text.byteSize front) :
    ∃ earlier : Cursor, earlier.In front ∧ place = earlier.continued more ∧
      Reads registry config front count earlier := by
  obtain ⟨⟨earlier, may⟩, visited, same⟩ := visit_beginning noMutual reads.1 early
  obtain ⟨rfl, separated⟩ := Prod.mk.inj same
  obtain rfl : true = may := separated
  exact ⟨earlier, canonicalVisits_inside visited, rfl, visited, reads.2⟩

/-- Each leaf of a script that the end of a beginning cuts is an attempt in the beginning. -/
theorem exists_attempt_of_cut
    (noMutual : NoMutualLeftRecursion registry.alternatives config (front ++ more))
    {node leaf : Node ε κ} (listed : ScriptNode registry config (front ++ more) node)
    (below : leaf.Below node) (terminal : leaf.isTerminal = true)
    (covers : leaf.Covers (Text.byteSize front)) :
    ∃ count place attempt, Reads registry config front count place ∧
      SentenceTries registry config front place attempt ∧ attempt.ended = true ∧
        attempt.leaf.BeginsLike leaf := by
  rcases listed with ⟨start, stop, rfl⟩ | ⟨count, place, reading, reads, member, rfl⟩
  -- White space has no leaf below it, and is none itself.
  · rcases Node.below_iff.mp below with rfl | ⟨child, listed, -⟩
    · cases terminal
    · cases listed
  rcases Node.below_iff.mp below with rfl | ⟨child, listed, further⟩
  · cases terminal
  have derived := derives_of_mem_oneOf (canonical_sound registry config (front ++ more)) member
  by_cases early : place.offset ≤ Text.byteSize front
  · obtain ⟨earlier, inside, rfl, reads'⟩ := reads_beginning noMutual reads early
    obtain ⟨attempt, tried, cut⟩ :=
      sentence_foreseen noMutual inside member child listed leaf further terminal covers
    exact ⟨count, earlier, attempt, reads', tried, cut⟩
  · have nothing : Foreseen (Text.byteSize front) (fun _ : Attempt ε κ => False) reading.children :=
      .of_behind (layout_between.items derived.2) (Nat.lt_of_not_le early)
    obtain ⟨_, never, -⟩ := nothing child listed leaf further terminal covers
    exact never.elim

/-- Completing a text at its end keeps every attempt at its sentences that the end cuts off. -/
theorem exists_cut_of_attempt {text : List Char}
    (noMutual : NoMutualLeftRecursion registry.alternatives config text) {count : Nat}
    {place : Cursor} (reads : Reads registry config text count place) {attempt : Attempt ε κ}
    (tried : SentenceTries registry config text place attempt) (ended : attempt.ended = true) :
    ∃ nodes ∈ (scriptRun registry config true text).1.cut,
      Node.openLeaf? nodes = some attempt.leaf := by
  obtain ⟨further, cut, all⟩ := (scriptRun_tries noMutual true).tried (.inl rfl)
  have fewer := count_of_visit reads.1
  obtain ⟨nodes, member, leaf⟩ := all.kept rfl attempt
    ⟨count, place, Nat.zero_le _, Nat.lt_succ_of_lt fewer, reads, tried⟩ ended
  exact ⟨nodes, by rwa [cut, List.nil_append], leaf⟩

/-! ### Both searches -/

/-- The beginning of a script can be completed. -/
theorem completes_of_whole {nodes : List (Node ε κ)}
    (whole : (scriptRun registry config false (front ++ more)).1.whole = some nodes) :
    ¬((scriptRun registry config true front).1.cut.isEmpty = true ∧
      (scriptRun registry config true front).1.whole.isNone = true) := by
  rintro ⟨uncut, nothing⟩
  have silent : (scriptRun registry config true front).1.whole = none ∧
      (scriptRun registry config true front).1.cut = [] :=
    ⟨Option.isNone_iff_eq_none.mp nothing, List.isEmpty_iff.mp uncut⟩
  have mirror : (scriptRun registry config false (front ++ more)).1.whole.isSome =
      (scriptRun registry config true front).1.whole.isSome :=
    (runs_mirror ⟨registry, config, front, more, false⟩ (.inr silent)).1
  rw [whole, silent.1] at mirror
  cases mirror

end Matching

namespace Parser

open Matching (scriptRun parse_eq unfinished_eq NoMutualLeftRecursion)

variable {ε κ σ : Type}

/-- The innermost incomplete node of an unfinished reading begins like a leaf. -/
def BreaksOffLike (leaf unfinished : Node ε κ) : Prop :=
  ∃ last, unfinished.openChain.getLast? = some last ∧ last.complete = false ∧ last.BeginsLike leaf

/-- Whatever the grammar is, every beginning of a text that is parsed can be completed. Unless two
types recur in each other at one place of the text, every leaf of the tree that the end of the
beginning cuts through is the innermost incomplete node of one of the unfinished readings. -/
theorem beginning_completed (registry : Registry ε κ) (config : Config) (surroundings : σ)
    {text : String} {front more : List Char} (parts : text.toList = front ++ more)
    {root : Node ε κ} (parsed : outcome (parse text) registry config surroundings = .ok root) :
    ∃ roots, outcome (parseUnfinished text (Text.byteSize front)) registry config surroundings =
        .ok roots ∧
      (NoMutualLeftRecursion registry.alternatives config text.toList →
        ∀ leaf : Node ε κ, leaf.Below root → leaf.isTerminal = true →
          leaf.Covers (Text.byteSize front) → ∃ unfinished ∈ roots, BreaksOffLike leaf unfinished) := by
  rw [outcome_parse, parse_eq] at parsed
  cases whole : (scriptRun registry config false text.toList).1.whole with
  | none =>
    rw [whole] at parsed
    cases parsed
  | some nodes =>
    rw [whole] at parsed
    obtain rfl := Except.ok.inj parsed
    rw [parts] at whole ⊢
    rw [outcome_parseUnfinished, textBefore_append parts, unfinished_eq, String.toList_ofList,
      if_neg (Matching.completes_of_whole whole)]
    refine ⟨_, rfl, fun noMutual leaf below terminal covers => ?_⟩
    rcases Node.below_iff.mp below with rfl | ⟨node, member, further⟩
    · cases terminal
    have listed := (Matching.scriptRun_tries noMutual false).nodes nodes whole node member
    obtain ⟨count, place, attempt, reads, tried, ended, begins⟩ :=
      Matching.exists_attempt_of_cut noMutual listed further terminal covers
    obtain ⟨nodes, cut, last⟩ :=
      Matching.exists_cut_of_attempt noMutual.beginning reads tried ended
    refine ⟨_, List.mem_map_of_mem cut, attempt.leaf, ?_, rfl, begins⟩
    have around : Node.openLeaf? [Node.cutOff (.ofText (String.ofList front)) none .script nodes] =
        some attempt.leaf := Node.openLeaf?_cutOff last
    rw [Node.openLeaf?, Node.openChainLast_cutOff] at around
    rw [Node.openChain_eq]
    exact around

-- A leaf of a sentence, found by looking through the tree.
private theorem exists_leaf (pass : Except ParseError (Node ε κ)) (offset : Nat)
    (like : Node ε κ → Bool)
    (found : (pass.toOption.any fun root => root.children.any fun sentence =>
      sentence.children.any fun leaf => like leaf && leaf.isTerminal &&
        (leaf.span.start ≤ offset && offset < leaf.span.stop)) = true) :
    ∃ root leaf, pass = .ok root ∧ leaf.Below root ∧ leaf.isTerminal = true ∧
      leaf.Covers offset ∧ like leaf = true := by
  cases pass with
  | error failure => cases found
  | ok root =>
    simp only [Except.toOption, Option.any_some, List.any_eq_true, Bool.and_eq_true,
      decide_eq_true_eq] at found
    obtain ⟨sentence, member, leaf, listed, ⟨same, terminal⟩, covers⟩ := found
    have below : leaf.Below root := (Relation.ReflTransGen.single member).tail listed
    exact ⟨root, leaf, rfl, below, terminal, covers, same⟩

theorem beginning_completed_calls :
    "ab?".toList = "ab".toList ++ ['?'] ∧
      NoMutualLeftRecursion Matching.calls.alternatives {} "ab?".toList ∧
        ∃ root leaf roots, outcome (parse "ab?") Matching.calls {} () = .ok root ∧
          leaf.Below root ∧ leaf.isTerminal = true ∧ leaf.Covers (Text.byteSize "ab".toList) ∧
            outcome (parseUnfinished "ab?" (Text.byteSize "ab".toList)) Matching.calls {} () =
              .ok roots ∧ ∃ unfinished ∈ roots, BreaksOffLike leaf unfinished := by
  have parts : "ab?".toList = "ab".toList ++ ['?'] := by decide
  have noMutual : NoMutualLeftRecursion Matching.calls.alternatives {} "ab?".toList :=
    Matching.noMutual_of_own Matching.calls_own _
  obtain ⟨root, leaf, parsed, below, terminal, covers, -⟩ :=
    exists_leaf (outcome (parse "ab?") Matching.calls {} ()) (Text.byteSize "ab".toList)
      (fun _ => true) (by decide +kernel)
  obtain ⟨roots, completed, like⟩ := beginning_completed Matching.calls {} () parts parsed
  exact ⟨parts, noMutual, root, leaf, roots, parsed, below, terminal, covers, completed,
    like noMutual leaf below terminal covers⟩

/-- Two types that may begin with each other, one of them in a sentence on its own, and a sentence
in which white space follows the other one. -/
def strayed : Registry Empty Empty :=
  .ofItems [("p", [[.type "q", .literal "x" ⟨0, 0⟩],
      [.placeholder ⟨"d", .builtin .digit, .optional, ⟨0, 0⟩⟩]]),
    ("q", [[.type "p"], [.literal "b" ⟨0, 0⟩]])]
  [[.type "p"], [.literal "a z" ⟨0, 0⟩], [.literal "a" ⟨0, 0⟩],
    [.literal "z " ⟨0, 0⟩, .type "q", .placeholder ⟨"w", .builtin .whitespace, .one, ⟨0, 0⟩⟩,
      .literal "y" ⟨0, 0⟩]]

/-- At the end of the beginning, the second type was remembered as it was read within the first one,
where it is cut. So the white space behind it is not among what could follow. -/
theorem leaf_lost_strayed :
    ∃ root leaf, outcome (parse "a z  y") strayed {} () = .ok root ∧ leaf.Below root ∧
      leaf.isTerminal = true ∧ leaf.Covers 4 ∧
        ∃ roots, outcome (parseUnfinished "a z  y" 4) strayed {} () = .ok roots ∧
          ¬∃ unfinished ∈ roots, BreaksOffLike leaf unfinished := by
  obtain ⟨root, leaf, parsed, below, terminal, covers, named⟩ :=
    exists_leaf (outcome (parse "a z  y") strayed {} ()) 4 (fun leaf => leaf.name == some "w")
      (by decide +kernel)
  have others : ((outcome (parseUnfinished "a z  y" 4) strayed {} ()).toOption.any fun roots =>
      roots.all fun root => root.openChain.getLast?.bind Node.name != some "w") = true := by
    decide +kernel
  cases completed : outcome (parseUnfinished "a z  y" 4) strayed {} () with
  | error failure =>
    rw [completed] at others
    cases others
  | ok roots =>
    rw [completed] at others
    refine ⟨root, leaf, parsed, below, terminal, covers, roots, rfl, ?_⟩
    rintro ⟨unfinished, member, last, innermost, -, begins⟩
    have differs := List.all_eq_true.mp others unfinished member
    simp only [innermost, Option.bind_some, begins.name, bne_iff_ne, ne_eq] at differs
    exact differs (beq_iff_eq.mp named)

end Parser
end SentenceGrammar
