import SentenceGrammar.Parser
import SentenceGrammar.Proofs.CutOffs
import SentenceGrammar.Proofs.ScriptBeginnings

/-!
# Parsing and completing

A search for completions takes the same course as one for a script: it only goes on when a script is
found, and keeps what is cut off. What is cut off and what is noted at the end of the text go
together. So the two modes agree: if a text is no script, then either it can be completed, and the
furthest failure is at its end, or both modes report the same failure.

## Main result

`parse_agrees_unfinished`: the outcomes of parsing a text and of completing it at its end.
-/
namespace SentenceGrammar
namespace Matching

variable {ε κ : Type} {text : List Char} {sign : Sign ε κ} {registry : Registry ε κ}
  {config : Config} {named : TypeReader ε κ} {early : Prop}

/-! ### Marks of scripts -/

theorem Reached.finished {scope : Scope ε κ} {first : Bool} {step : Step ε κ}
    (reached : Reached scope text first step) : ∀ node ∈ step.nodes, node.Finished := by
  obtain ⟨_, row, -⟩ := reached
  exact layout_finished.row row

theorem Marks.perhapsExpect {α : Type} {condition : Prop} [Decidable condition]
    {active : List (String × Nat)} {place : Cursor} {expected : Expected} {loud : α → Prop}
    {post : α → Prop} {next : Unit → Search ε κ α} (inside : place.In text)
    (going : condition → place.rest ≠ [])
    (marks : ∀ noted early, Marks text sign registry config early loud (next noted) post) :
    Marks text sign registry config early loud
      (if condition then
        Matching.expect (completions registry config active) place expected >>= next
      else next ()) post := by
  split
  next noted =>
    exact (Marks.expect inside expected).bind (fun _ _ _ meant => absurd meant.1 (going noted))
      fun _ _ => marks _ _
  next => exact marks _ _

theorem advance_marks (marks : NamedMarks text sign registry config [] named) (first : Bool)
    {step : Step ε κ} (inside : step.stop.In text) (finished : ∀ node ∈ step.nodes, node.Finished) :
    Marks text sign registry config early (fun found => ∃ nodes ∈ found.2, sign.sought nodes)
      (advance (completions registry config []) named first step) fun _ => True := by
  rw [advance]
  dsimp only
  split
  · refine .perhapsExpect inside (fun noted => noted.2) fun _ early => ?_
    refine (readAlternatives_marks marks (List.subset_append_right _ _) inside).map
      (fun readings _ => ?_) fun _ _ => trivial
    have same (chosen : Alternative ε κ) (children : List (Node ε κ)) :
        sign.sought (step.nodes ++ [.cutOff step.stop none (.alternative chosen) children]) ↔
          sign.sought children :=
      (sign.behind finished).trans (sign.around (by simp))
    simp only [List.mem_map, exists_exists_and_eq_and, same]
  · exact .perhapsExpect inside id fun _ early => .pure (by simp) trivial

theorem forM_marks {steps : List (Step ε κ)} (inside : ∀ step ∈ steps, step.stop.In text)
    (going : ∀ step ∈ steps, step.stop.rest ≠ []) (expected : Expected) :
    Marks text sign registry config early (fun _ => False)
      (steps.forM fun step => expect (completions registry config []) step.stop expected)
      fun _ => True := by
  induction steps generalizing early with
  | nil => exact .pure False.elim trivial
  | cons step rest ih =>
    exact (Marks.expect (inside step List.mem_cons_self) expected).bind
      (fun _ _ _ meant => going step List.mem_cons_self meant.1) fun _ _ =>
        ih (fun step member => inside step (List.mem_cons_of_mem _ member))
          fun step member => going step (List.mem_cons_of_mem _ member)

theorem rounds_marks (marks : NamedMarks text sign registry config [] named) {left : Nat} {first : Bool}
    {seen : List Nat} {frontier : List (Step ε κ)} {readings : ScriptReadings ε κ}
    (reached : ∀ step ∈ frontier, Reached (completions registry config []) text first step)
    (noted : (∃ nodes ∈ readings.cut, sign.sought nodes) → early) :
    Marks text sign registry config early
      (fun readings => ∃ nodes ∈ readings.cut, sign.sought nodes)
      (rounds (completions registry config []) named left first seen frontier readings)
      fun _ => True := by
  induction left generalizing first seen frontier readings early with
  | zero => exact .pure noted trivial
  | succ left ih =>
    unfold rounds
    extract_lets whole finish
    rw [if_neg (by simp [completions])]
    split
    next =>
      split
      -- No step got to the end, where a script would have been found.
      next none =>
        have going : ∀ step ∈ frontier, step.stop.rest ≠ [] := by
          intro step member ended
          have found : whole.isSome = true := whole_isSome_iff.mpr (.inr ⟨step, member, ended⟩)
          rw [Option.isNone_iff_eq_none.mp none] at found
          cases found
        refine (forM_marks (fun step member => (reached step member).inside) going _).bind
          (fun _ _ _ => False.elim) fun _ _ => .pure (.inl ∘ noted) trivial
      next => exact .pure noted trivial
    next going =>
      obtain ⟨-, further⟩ := not_or.mp going
      refine (Marks.mapM (fun found => ∃ nodes ∈ found.2, sign.sought nodes)
          (fun _ found => True ∧ ∀ step ∈ found.1,
            Reached (completions registry config []) text false step) fun step member early =>
        (advance_marks marks first (reached step member).inside (reached step member).finished).ensuring
          (advance_reaches marks.sound (reached step member) (Decidable.not_not.mp further))).bind
            ?kept fun found related => ih (fun step member => ?reached) fun cut => ?noted
      case kept =>
        rintro found progress - ⟨after, member, nodes, cut, shown⟩
        have listed := List.mem_append_right readings.cut (List.mem_flatMap.mpr ⟨after, member, cut⟩)
        exact ⟨nodes, rounds_keep_cut.subset listed, shown⟩
      case reached =>
        obtain ⟨_, _, _, ⟨-, reaches⟩, taken⟩ := exists_taken related member
        exact reaches step taken
      case noted =>
        rcases Sign.exists_append.mp cut with before | ⟨nodes, now, shown⟩
        · exact .inl (noted before)
        · obtain ⟨after, member, listed⟩ := List.mem_flatMap.mp now
          exact .inr ⟨after, member, nodes, listed, shown⟩

/-! ### Parsing and completing -/

/-- The search through a text, for completions or not. -/
def scriptRun (registry : Registry ε κ) (config : Config) (completing : Bool) (text : List Char) :
    ScriptReadings ε κ × Progress ε κ :=
  (readScript ⟨registry, config, completing, []⟩ ⟨0, text⟩).run (.start text)

theorem scriptRun_marks (sign : Sign ε κ) (registry : Registry ε κ) (config : Config)
    (text : List Char) :
    Moves text sign registry config
      (∃ nodes ∈ (scriptRun registry config true text).1.cut, sign.sought nodes) (.start text)
      (scriptRun registry config true text).2 := by
  refine (rounds_marks (readType_marks text registry config [] _) (fun step member => ?_)
    (by simp) (.start text) ⟨?_, Cursor.in_start text, fun _ => rfl, ?_⟩ False.elim).2
  · exact List.mem_singleton.mp member ▸ firstStep_reached
  · simp [Derived, Progress.start]
  · simp [Progress.start]

theorem scriptRun_agrees (registry : Registry ε κ) (config : Config) (text : List Char) :
    (scriptRun registry config false text).1.whole.isSome =
        (scriptRun registry config true text).1.whole.isSome ∧
      ((scriptRun registry config true text).1.whole = none →
        (scriptRun registry config false text).2.failure =
          (scriptRun registry config true text).2.failure) := by
  have mirror := runs_mirror ⟨registry, config, text, [], false⟩ (.inl rfl)
  simp only [Beginning.longRun, Beginning.shortRun, List.append_nil, Failure.continued,
    Cursor.continued_nil] at mirror
  exact mirror

/-- If no script is found, then none is when completing either, with the same failure. -/
theorem scriptRun_nothing (nothing : (scriptRun registry config false text).1.whole = none) :
    (scriptRun registry config true text).1.whole = none ∧
      (scriptRun registry config false text).2.failure =
        (scriptRun registry config true text).2.failure := by
  obtain ⟨same, failures⟩ := scriptRun_agrees registry config text
  rw [nothing, Option.isSome_none, eq_comm, Option.isSome_eq_false_iff,
    Option.isNone_iff_eq_none] at same
  exact ⟨same, failures same⟩

/-- If no script is found, then the failure is at a place of the text. -/
theorem failure_inside (registry : Registry ε κ) (config : Config) (completing : Bool)
    (text : List Char) (nothing : (scriptRun registry config completing text).1.whole = none) :
    (scriptRun registry config completing text).2.failure.place.In text := by
  have inside := (scriptRun_marks .anything registry config text).marked.inside
  cases completing with
  | true => exact inside
  | false => exact (scriptRun_nothing nothing).2 ▸ inside

/-- In the beginning, nothing is told. -/
theorem start_silent (text : List Char) (wanted : Expected → Prop) :
    ¬(Progress.start text : Progress ε κ).failure.Tells wanted :=
  fun ⟨_, _, listed, _⟩ => nomatch listed

/-- What is looked for is expected at the end of the text just if it is cut off there. -/
theorem told_iff_cut (sign : Sign ε κ) (defined : registry.undefinedReferences = []) :
    (scriptRun registry config true text).2.failure.Tells sign.wanted ↔
      ∃ nodes ∈ (scriptRun registry config true text).1.cut, sign.sought nodes := by
  have moves := scriptRun_marks sign registry config text
  exact ⟨fun told => (moves.heard defined told).resolve_left (start_silent text _), moves.marks⟩

/-- What can be read in an empty text is read. -/
theorem scriptRun_nil (registry : Registry ε κ) (config : Config) (completing : Bool) :
    (scriptRun registry config completing []).1.whole.isSome = true :=
  round_finds ⟨_, List.mem_cons_self, rfl⟩

theorem parse_eq (registry : Registry ε κ) (config : Config) (script : String) :
    parse registry config script =
      match (scriptRun registry config false script.toList).1.whole with
      | some nodes => .ok (.covering (.ofText script) (Cursor.ofText script).finish none .script nodes)
      | none => .error (scriptRun registry config false script.toList).2.failure.report :=
  rfl

theorem unfinished_eq (registry : Registry ε κ) (config : Config) (script : String) :
    unfinished registry config script =
      if (scriptRun registry config true script.toList).1.cut.isEmpty ∧
        (scriptRun registry config true script.toList).1.whole.isNone
      then .error (scriptRun registry config true script.toList).2.failure.report
      else .ok ((scriptRun registry config true script.toList).1.cut.map fun nodes =>
        .cutOff (.ofText script) none .script nodes) :=
  rfl

/-- If the search for completions found no script, then its failure is at the end of the text just if
something was cut off. -/
theorem position_of_nothing (nothing : (scriptRun registry config true text).1.whole = none) :
    let failure := (scriptRun registry config true text).2.failure.report
    ((scriptRun registry config true text).1.cut ≠ [] → failure.position = Text.byteSize text) ∧
      (registry.undefinedReferences = [] → (scriptRun registry config true text).1.cut = [] →
        failure.position < Text.byteSize text) := by
  have moves := scriptRun_marks .anything registry config text
  have inside := moves.marked.inside
  have shown (cut : (scriptRun registry config true text).1.cut ≠ []) :=
    moves.marks ((List.exists_mem_of_ne_nil _ cut).imp fun nodes listed => ⟨listed, trivial⟩)
  refine ⟨fun cut => inside.rest_eq_nil_iff.mp (shown cut).1, fun defined uncut => ?_⟩
  refine Nat.lt_of_le_of_ne inside.offset_le fun last => ?_
  by_cases fresh : (scriptRun registry config true text).2.failure.expected = []
  -- Nothing was expected anywhere, and the end is where the text begins.
  · have empty := (Text.byteSize_eq_zero_iff text).mp (last.symm.trans (moves.marked.fresh fresh))
    have found := scriptRun_nil registry config true
    rw [← empty, nothing] at found
    cases found
  · have told : (scriptRun registry config true text).2.failure.Tells (Sign.anything (ε := ε)
        (κ := κ)).wanted := by
      obtain ⟨expected, listed⟩ := List.exists_mem_of_ne_nil _ fresh
      exact ⟨inside.rest_eq_nil_iff.mpr last, expected, listed, trivial⟩
    obtain ⟨nodes, listed, -⟩ := (told_iff_cut .anything defined).mp told
    rw [uncut] at listed
    cases listed

end Matching

namespace Parser

open Matching (scriptRun parse_eq unfinished_eq)

variable {ε κ σ α : Type}

/-- What comes of a pass of a parser without listeners. -/
def outcome (pass : Pass ε κ σ α) (registry : Registry ε κ) (config : Config) (surroundings : σ) :
    Except ParseError α :=
  (pass.run.run ({ registry, config }, surroundings)).1

/-- Without listeners, a pass begins with the grammar as it is. -/
theorem outcome_begin (next : Parser ε κ σ × σ → Pass ε κ σ α) (registry : Registry ε κ)
    (config : Config) (surroundings : σ) :
    outcome (begin >>= fun _ => get >>= next) registry config surroundings =
      outcome (next ({ registry, config }, surroundings)) registry config surroundings :=
  rfl

theorem outcome_parse (registry : Registry ε κ) (config : Config) (surroundings : σ)
    (text : String) :
    outcome (parse text) registry config surroundings =
      (Matching.parse registry config text).mapError .noMatch := by
  rw [parse, outcome_begin]
  dsimp only
  cases Matching.parse registry config text <;> rfl

theorem outcome_parseUnfinished (registry : Registry ε κ) (config : Config) (surroundings : σ)
    (text : String) (cursor : Nat) :
    outcome (parseUnfinished text cursor) registry config surroundings =
      (Matching.unfinished registry config (textBefore text cursor)).mapError .noMatch := by
  rw [parseUnfinished, outcome_begin]
  dsimp only
  cases Matching.unfinished registry config (textBefore text cursor) <;> rfl

/-- An unfinished tree is made of nodes that were cut off. -/
theorem exists_cut_of_root {registry : Registry ε κ} {config : Config} {surroundings : σ}
    {text : String} {cursor : Nat} {roots : List (Node ε κ)}
    (found : outcome (parseUnfinished text cursor) registry config surroundings = .ok roots)
    {root : Node ε κ} (listed : root ∈ roots) :
    ∃ nodes ∈ (scriptRun registry config true (textBefore text cursor).toList).1.cut,
      root = .cutOff (.ofText (textBefore text cursor)) none .script nodes := by
  rw [outcome_parseUnfinished, unfinished_eq] at found
  split at found
  · cases found
  · obtain rfl := Except.ok.inj found
    obtain ⟨nodes, cut, rfl⟩ := List.mem_map.mp listed
    exact ⟨nodes, cut, rfl⟩

theorem textBefore_append {text : String} {front more : List Char}
    (parts : text.toList = front ++ more) :
    textBefore text (Text.byteSize front) = String.ofList front := by
  rw [textBefore, parts, Text.takeBytes_append]

theorem textBefore_end (text : String) : textBefore text (Text.byteSize text.toList) = text := by
  rw [textBefore_append (List.append_nil text.toList).symm, String.ofList_toList]

/-- A failure of which something is checked. -/
theorem exists_failure {α : Type} (pass : Except ParseError α) (check : NoMatch → Bool)
    (found : (match pass with
      | .error (.noMatch failure) => check failure
      | _ => false) = true) :
    ∃ failure, pass = .error (.noMatch failure) ∧ check failure = true := by
  split at found
  next failure => exact ⟨failure, rfl, found⟩
  next => cases found

/-- How parsing a text and completing it at its end agree. -/
inductive ModesAgree (registry : Registry ε κ) (text : List Char) :
    Except ParseError (Node ε κ) → Except ParseError (List (Node ε κ)) → Prop where
  /-- The text is a script. -/
  | whole (root : Node ε κ) (roots : List (Node ε κ)) :
      ModesAgree registry text (.ok root) (.ok roots)
  /-- The text is the beginning of one, and parsing it fails at its end. -/
  | unfinished {failure : NoMatch} {roots : List (Node ε κ)}
      (ended : failure.position = Text.byteSize text) (some : roots ≠ []) :
      ModesAgree registry text (.error (.noMatch failure)) (.ok roots)
  /-- It is neither, and both fail in the same way, before its end unless a type is not defined. -/
  | neither {failure : NoMatch}
      (before : registry.undefinedReferences = [] → failure.position < Text.byteSize text) :
      ModesAgree registry text (.error (.noMatch failure)) (.error (.noMatch failure))

/-- For every grammar and every text, parsing and completing at the end either both succeed, or
parsing fails at the end of the text and there are completions, or both fail in the same way. -/
theorem parse_agrees_unfinished (registry : Registry ε κ) (config : Config) (surroundings : σ)
    (text : String) :
    ModesAgree registry text.toList (outcome (parse text) registry config surroundings)
      (outcome (parseUnfinished text (Text.byteSize text.toList)) registry config surroundings) := by
  obtain ⟨same, failures⟩ := Matching.scriptRun_agrees registry config text.toList
  rw [outcome_parse, outcome_parseUnfinished, textBefore_end, parse_eq, unfinished_eq]
  cases whole : (scriptRun registry config true text.toList).1.whole with
  | some nodes =>
    rw [whole] at same
    obtain ⟨nodes', found⟩ := Option.isSome_iff_exists.mp same
    rw [found, if_neg (by simp)]
    exact .whole _ _
  | none =>
    rw [whole, Option.isSome_none, Option.isSome_eq_false_iff, Option.isNone_iff_eq_none] at same
    obtain ⟨ended, before⟩ := Matching.position_of_nothing whole
    rw [same, failures whole]
    by_cases cut : (scriptRun registry config true text.toList).1.cut = []
    · rw [if_pos (by simp [cut])]
      exact .neither fun defined => before defined cut
    · rw [if_neg (by simp [cut])]
      exact .unfinished (ended cut) (mt List.map_eq_nil_iff.mp cut)

end Parser
end SentenceGrammar
