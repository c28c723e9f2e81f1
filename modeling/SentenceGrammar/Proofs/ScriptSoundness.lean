import SentenceGrammar.Proofs.Layout
import SentenceGrammar.Proofs.Soundness

/-!
# Soundness of parsing

A script is a row of sentences with white space around and between them. Each tree that a text is
parsed to derives such a row, and wherever one looks in it, it shows the text.

## Main result

`parse_sound`: the tree of a text derives the whole text.
-/
namespace SentenceGrammar

variable {ε κ : Type}

/-! ### What a tree shows -/

namespace Node

/-- One node is below another one, or the same. -/
def Below (node root : Node ε κ) : Prop :=
  Relation.ReflTransGen (fun parent child : Node ε κ => child ∈ parent.children) root node

theorem below_iff {node root : Node ε κ} :
    node.Below root ↔ node = root ∨ ∃ child ∈ root.children, node.Below child := by
  rw [Below, Relation.ReflTransGen.cases_head_iff, eq_comm]
  rfl

/-- What holds of a node and below its children holds of all below the node. -/
theorem forall_below {P : Node ε κ → Prop} {root : Node ε κ} (here : P root)
    (inner : ∀ child ∈ root.children, ∀ node : Node ε κ, node.Below child → P node) :
    ∀ node : Node ε κ, node.Below root → P node := by
  intro node below
  rcases below_iff.mp below with rfl | ⟨child, listed, further⟩
  · exact here
  · exact inner child listed node further

/-- The node and all below it are complete. -/
def Finished (root : Node ε κ) : Prop := ∀ node : Node ε κ, node.Below root → node.complete = true

/-- The node and all below it show all that they cover. -/
def Unclipped (root : Node ε κ) : Prop :=
  ∀ node : Node ε κ, node.Below root → node.text = node.covered

theorem Unclipped.text_eq {node : Node ε κ} (unclipped : node.Unclipped) :
    node.text = node.covered := unclipped node .refl

theorem Unclipped.below {node root : Node ε κ} (unclipped : root.Unclipped)
    (below : node.Below root) : node.Unclipped :=
  fun _ further => unclipped _ (below.trans further)

/-- The node and all below it show what their spans cut out of the text, or nothing if there is no
such slice. -/
def Sliced (text : List Char) (root : Node ε κ) : Prop :=
  ∀ node : Node ε κ, node.Below root → node.text = String.ofList ((node.span.slice? text).getD [])

/-- The node is complete and shows what its span cuts out of the text, which is all that it
covers. -/
def Shows (text : List Char) (node : Node ε κ) : Prop :=
  node.complete = true ∧ node.span.slice? text = some node.text.toList ∧ node.text = node.covered

theorem leafTexts_append (front back : List (Node ε κ)) :
    leafTexts (front ++ back) = leafTexts front ++ leafTexts back := by
  induction front with
  | nil => simp [leafTexts]
  | cons node rest ih => rw [List.cons_append, leafTexts, leafTexts, ih, String.append_assoc]

/-- A node whose children show its text shows it in its leaves. -/
theorem leafText_eq {node : Node ε κ} (children : leafTexts node.children = node.text) :
    leafText node = node.text := by
  obtain ⟨kind, name, span, covered, complete, nodes⟩ := node
  cases nodes with
  | nil => rfl
  | cons first rest => exact children

end Node

namespace Matching

variable {rules : String → List (Alternative ε κ)} {config : Config} {text word more : List Char}
  {start middle stop : Cursor} {nodes others : List (Node ε κ)}

/-- The nodes show the text between two places, and their leaves are all of it. -/
structure Shown (text : List Char) (start stop : Cursor) (nodes : List (Node ε κ)) : Prop where
  leaves : ∃ word, start.Passes word stop ∧ Node.leafTexts nodes = String.ofList word
  below : ∀ root ∈ nodes, ∀ node : Node ε κ, node.Below root → node.Shows text

theorem Shown.nil (text : List Char) (place : Cursor) :
    Shown (ε := ε) (κ := κ) text place place [] :=
  ⟨⟨[], .refl _, rfl⟩, by simp⟩

theorem Shown.append (first : Shown text start middle nodes)
    (second : Shown text middle stop others) : Shown text start stop (nodes ++ others) := by
  obtain ⟨word, passes, leaves⟩ := first.leaves
  obtain ⟨more, further, behind⟩ := second.leaves
  refine ⟨⟨word ++ more, passes.trans further, ?_⟩, fun root member => ?_⟩
  · rw [Node.leafTexts_append, leaves, behind, String.ofList_append]
  · rcases List.mem_append.mp member with front | back
    · exact first.below root front
    · exact second.below root back

private theorem shown_singleton (small : Text.byteSize text ≤ Span.limit) (inside : start.In text)
    (passes : start.Passes word stop) {kind : NodeKind ε κ} {name : Option String}
    (leaves : nodes ≠ [] → Node.leafTexts nodes = String.ofList word)
    (below : ∀ root ∈ nodes, ∀ node : Node ε κ, node.Below root → node.Shows text) :
    Shown text start stop
      [⟨kind, name, start.spanTo stop, String.ofList word, true, nodes⟩] := by
  have covers : start.Passes (String.ofList word).toList stop := by simpa using passes
  have whole : Node.text ⟨kind, name, start.spanTo stop, String.ofList word, true, nodes⟩ =
      String.ofList word :=
    Node.text_of_small rfl covers ((inside.passes passes).offset_le.trans small)
  have leaf : Node.leafText ⟨kind, name, start.spanTo stop, String.ofList word, true, nodes⟩ =
      String.ofList word := by
    cases nodes with
    | nil => exact whole
    | cons first rest => exact leaves (List.cons_ne_nil _ _)
  refine ⟨⟨word, passes, by simp [Node.leafTexts, leaf]⟩, fun root member => ?_⟩
  obtain rfl := List.mem_singleton.mp member
  exact Node.forall_below ⟨rfl, Node.slice_text inside rfl covers small, whole⟩ below

theorem Shown.leaf (small : Text.byteSize text ≤ Span.limit) (inside : start.In text)
    (passes : start.Passes word stop) (kind : NodeKind ε κ) (name : Option String) :
    Shown text start stop [⟨kind, name, start.spanTo stop, String.ofList word, true, []⟩] :=
  shown_singleton small inside passes (absurd rfl) (by simp)

theorem Shown.parent (small : Text.byteSize text ≤ Span.limit) (inside : start.In text)
    (children : Shown text start stop nodes) (passes : start.Passes word stop)
    (kind : NodeKind ε κ) (name : Option String) :
    Shown text start stop
      [⟨kind, name, start.spanTo stop, String.ofList word, true, nodes⟩] := by
  obtain ⟨word', passes', leaves⟩ := children.leaves
  obtain rfl := passes.word_unique passes'
  exact shown_singleton small inside passes (fun _ => leaves) children.below

/-- The nodes of a derivation show the text between its places. -/
theorem layout_shown (small : Text.byteSize text ≤ Span.limit) :
    Layout (ε := ε) (κ := κ) fun start stop nodes =>
      start.In text → Shown text start stop nodes where
  nil place _ := .nil text place
  append before _ first second inside := (first inside).append (second (inside.passes before))
  leaf kind name passes inside := .leaf small inside passes kind name
  parent kind name passes children inside := .parent small inside (children inside) passes kind name

/-- The nodes of a derivation are complete. -/
theorem layout_finished :
    Layout (ε := ε) (κ := κ) fun _ _ nodes => ∀ node ∈ nodes, node.Finished where
  nil _ := by simp
  append _ _ first second node member :=
    (List.mem_append.mp member).elim (first node) (second node)
  leaf _ _ _ node member := by
    obtain rfl := List.mem_singleton.mp member
    exact Node.forall_below rfl (by simp)
  parent _ _ _ inner node member := by
    obtain rfl := List.mem_singleton.mp member
    exact Node.forall_below rfl inner

/-! ### Rows of sentences -/

/-- White space, shown as one gap unless it is empty. -/
inductive DerivesGap : Cursor → Cursor → List (Node ε κ) → Prop where
  | none (place : Cursor) : DerivesGap place place []
  | some {start stop : Cursor} {word : List Char} (nonempty : word ≠ [])
      (blank : word.all Text.isBlank = true) (passes : start.Passes word stop) :
      DerivesGap start stop [⟨.gap, none, start.spanTo stop, String.ofList word, true, []⟩]

/-- So many sentences of a registry from a place on, with white space around them. A further one
may only follow in front of all others or behind a gap, and the flag tells whether it may. -/
inductive DerivesRow (registry : Registry ε κ) (config : Config) (start : Cursor) :
    Nat → Cursor → Bool → List (Node ε κ) → Prop where
  | leading {stop : Cursor} {gap : List (Node ε κ)} (blank : DerivesGap start stop gap) :
      DerivesRow registry config start 0 stop true gap
  | sentence {count : Nat} {middle stop : Cursor} {nodes gap : List (Node ε κ)}
      {word : List Char} {reading : TypeReading ε κ}
      (before : DerivesRow registry config start count middle true nodes)
      (derived : DerivesOneOf registry.alternatives config registry.sentences middle reading)
      (passes : middle.Passes word reading.stop) (blank : DerivesGap reading.stop stop gap) :
      DerivesRow registry config start (count + 1) stop (!gap.isEmpty)
        (nodes ++ ⟨.alternative reading.chosen, none, middle.spanTo reading.stop,
          String.ofList word, true, reading.children⟩ :: gap)

theorem DerivesGap.passes (gap : DerivesGap start stop nodes) :
    ∃ word, start.Passes word stop := by
  cases gap with
  | none => exact ⟨_, .refl _⟩
  | some _ _ passes => exact ⟨_, passes⟩

theorem DerivesRow.passes {registry : Registry ε κ} {count : Nat} {separated : Bool}
    (row : DerivesRow registry config start count stop separated nodes) :
    ∃ word, start.Passes word stop := by
  induction row with
  | leading blank => exact blank.passes
  | sentence _ _ passes blank ih =>
    obtain ⟨front, before⟩ := ih
    obtain ⟨gap, behind⟩ := blank.passes
    exact ⟨_, (before.trans passes).trans behind⟩

theorem Layout.row {property : Cursor → Cursor → List (Node ε κ) → Prop}
    (layout : Layout property) {registry : Registry ε κ} {count : Nat} {separated : Bool}
    (row : DerivesRow registry config start count stop separated nodes) :
    property start stop nodes := by
  have gap {start stop : Cursor} {nodes : List (Node ε κ)} (blank : DerivesGap start stop nodes) :
      property start stop nodes := by
    cases blank with
    | none => exact layout.nil _
    | some _ _ passes => exact layout.leaf _ _ passes
  induction row with
  | leading blank => exact gap blank
  | @sentence _ _ _ _ _ _ reading before derived passes blank ih =>
    obtain ⟨_, front⟩ := before.passes
    obtain ⟨_, behind⟩ := blank.passes
    have sentence :=
      layout.parent (.alternative reading.chosen) none passes (layout.items derived.2)
    exact layout.append front (passes.trans behind) ih
      (layout.append passes behind sentence (gap blank))

theorem DerivesRow.shown {registry : Registry ε κ} {count : Nat} {separated : Bool}
    (small : Text.byteSize text ≤ Span.limit) (inside : start.In text)
    (row : DerivesRow registry config start count stop separated nodes) :
    Shown text start stop nodes :=
  (layout_shown small).row row inside

theorem readGap_derives {gap : List (Node ε κ)} (found : readGap start = (stop, gap)) :
    DerivesGap start stop gap := by
  have passes := Cursor.passes_skipWhile Text.isBlank start
  rw [readGap, Prod.mk.injEq] at found
  obtain ⟨rfl, rfl⟩ := found
  split
  next same =>
    have empty := passes.word_eq_nil_iff.mpr same
    have stays : start.skipWhile Text.isBlank = start := by
      rw [empty] at passes
      exact passes.eq_of_nil
    rw [stays]
    exact .none start
  next moved =>
    rw [Node.covering_eq passes]
    exact .some (fun empty => moved (passes.word_eq_nil_iff.mp empty)) (List.all_takeWhile) passes

/-! ### Searching for scripts -/

variable {scope : Scope ε κ} {kept : Known ε κ → Prop} {named : TypeReader ε κ}

/-- A step that was reached by a row of sentences from the beginning of the text. Before the first
round there are none yet, and there is never more than one if several are not allowed. -/
def Reached (scope : Scope ε κ) (text : List Char) (first : Bool) (step : Step ε κ) : Prop :=
  ∃ count, DerivesRow scope.registry scope.config ⟨0, text⟩ count step.stop step.separated
      step.nodes ∧
    (first = true → count = 0) ∧ (scope.config.severalSentences = false → count ≤ 1)

/-- The nodes derive the whole text. -/
def DerivesWhole (registry : Registry ε κ) (config : Config) (text : List Char)
    (nodes : List (Node ε κ)) : Prop :=
  ∃ count separated,
    DerivesRow registry config ⟨0, text⟩ count (Cursor.finish ⟨0, text⟩) separated nodes ∧
      (config.severalSentences = false → count ≤ 1)

private theorem extend_reached {step : Step ε κ} {count : Nat} {reading : TypeReading ε κ}
    (row : DerivesRow scope.registry scope.config ⟨0, text⟩ count step.stop true step.nodes)
    (derived : DerivesOneOf scope.registry.alternatives scope.config scope.registry.sentences
      step.stop reading)
    (bound : scope.config.severalSentences = false → count = 0) :
    Reached scope text false (step.extend reading) := by
  obtain ⟨word, passes⟩ := derived.2.passes
  refine ⟨count + 1, ?_, by simp, fun single => by rw [bound single]⟩
  rw [Step.extend, Node.covering_eq passes]
  exact .sentence row derived passes (readGap_derives rfl)

theorem advance_reaches
    (sound : NamedSound scope.registry.alternatives text kept scope named) {first : Bool}
    {step : Step ε κ} (reached : Reached scope text first step)
    (further : first = true ∨ scope.config.severalSentences = true) :
    Ensures kept (advance scope named first step) fun found =>
      ∀ step ∈ found.1, Reached scope text false step := by
  obtain ⟨count, row, none, -⟩ := reached
  -- A second sentence is only read if several are allowed.
  have bound (single : scope.config.severalSentences = false) : count = 0 :=
    none (further.resolve_right (by simp [single]))
  have inside : step.stop.In text := by
    obtain ⟨_, passes⟩ := row.passes
    exact (Cursor.in_start text).passes passes
  rw [advance]
  dsimp only
  split
  next separated =>
    rw [separated] at row
    refine .perhapsExpect fun _ => ?_
    refine (readAlternatives_derives sound scope.registry.sentences inside).bind
      fun readings derived => .pure fun next member => ?_
    obtain ⟨reading, found, rfl⟩ := List.mem_map.mp member
    exact extend_reached row (derived reading found) bound
  next => exact .perhapsExpect fun _ => .pure (by simp)

private theorem derivesWhole_of_atEnd {first : Bool} {step : Step ε κ}
    (reached : Reached scope text first step) (atEnd : step.stop.rest = []) :
    DerivesWhole scope.registry scope.config text step.nodes := by
  obtain ⟨count, row, -, bound⟩ := reached
  obtain ⟨_, passes⟩ := row.passes
  have last := (Cursor.in_start text).passes passes
  have finish := (Cursor.in_start text).passes (Cursor.passes_finish ⟨0, text⟩)
  -- With no text left, the step has got to the only place there is.
  have same : step.stop = Cursor.finish ⟨0, text⟩ := by
    apply last.eq_of_offset finish
    have size := last.offset_add
    simpa [atEnd, Cursor.finish, Cursor.past] using size
  exact ⟨count, _, same ▸ row, bound⟩

/-- Steps to places that were seen are dropped, the others were all taken from an earlier one. -/
theorem exists_taken {α : Type} {related : Step ε κ → List (Step ε κ) × α → Prop}
    {frontier : List (Step ε κ)} {found : List (List (Step ε κ) × α)}
    (all : List.Forall₂ related frontier found) {seen : List Nat} {step : Step ε κ}
    (kept : step ∈ keepNew (fun step => step.stop.offset) seen (found.flatMap Prod.fst)) :
    ∃ earlier ∈ frontier, ∃ after, related earlier after ∧ step ∈ after.1 := by
  obtain ⟨after, registered, listed⟩ := List.mem_flatMap.mp ((keepNew_sublist _ _ _).subset kept)
  obtain ⟨earlier, member, holds⟩ := exists_of_forall₂ all registered
  exact ⟨earlier, member, after, holds, listed⟩

/-- What was found in an earlier round stays, and else a step of this round is at the end. -/
theorem whole_cases {known : Option (List (Node ε κ))} {frontier : List (Step ε κ)}
    {nodes : List (Node ε κ)}
    (found : (match known with
      | some nodes => some nodes
      | none => (frontier.find? fun step : Step ε κ => step.stop.rest.isEmpty).map Step.nodes) =
        some nodes) :
    known = some nodes ∨ ∃ step ∈ frontier, step.stop.rest = [] ∧ nodes = step.nodes := by
  split at found
  next => exact .inl found
  next =>
    obtain ⟨step, first, rfl⟩ := Option.map_eq_some_iff.mp found
    have ended := List.find?_some first
    exact .inr ⟨step, List.mem_of_find?_eq_some first, List.isEmpty_iff.mp ended, rfl⟩

theorem rounds_derives
    (sound : NamedSound scope.registry.alternatives text kept scope named) (left : Nat)
    (first : Bool) (seen : List Nat) (frontier : List (Step ε κ)) (readings : ScriptReadings ε κ)
    (reached : ∀ step ∈ frontier, Reached scope text first step)
    (derived : ∀ nodes, readings.whole = some nodes →
      DerivesWhole scope.registry scope.config text nodes) :
    Ensures kept (rounds scope named left first seen frontier readings) fun readings =>
      ∀ nodes, readings.whole = some nodes →
        DerivesWhole scope.registry scope.config text nodes := by
  induction left generalizing first seen frontier readings with
  | zero => exact .pure derived
  | succ left ih =>
    unfold rounds
    extract_lets whole finish
    have complete : ∀ nodes, whole = some nodes →
        DerivesWhole scope.registry scope.config text nodes := by
      intro nodes found
      rcases whole_cases found with before | ⟨step, member, ended, rfl⟩
      · exact derived nodes before
      · exact derivesWhole_of_atEnd (reached step member) ended
    split
    · exact .pure complete
    · split
      · split
        · exact Ensures.bind (.forM fun _ _ => .expect _ _ _) fun _ _ => .pure complete
        · exact .pure complete
      next going =>
        have further := Decidable.not_not.mp (not_or.mp going).2
        refine (Ensures.mapM (fun _ found => ∀ step ∈ found.1, Reached scope text false step)
          fun step member => advance_reaches sound (reached step member) further).bind
            fun found related => ih _ _ _ _ (fun step kept => ?_) complete
        obtain ⟨_, _, _, reaches, taken⟩ := exists_taken related kept
        exact reaches step taken

theorem readScript_derives (sound : NamedSound scope.registry.alternatives text kept scope
      (readType (levelsFor scope.registry text))) :
    Ensures kept (readScript scope ⟨0, text⟩) fun readings =>
      ∀ nodes, readings.whole = some nodes →
        DerivesWhole scope.registry scope.config text nodes := by
  refine rounds_derives sound _ true _ _ {} (fun step member => ?_) (by simp)
  obtain rfl := List.mem_singleton.mp member
  exact ⟨0, .leading (readGap_derives rfl), fun _ => rfl, fun _ => Nat.zero_le 1⟩

/-- A tree of a whole text stands for a script, and its children derive the text. -/
theorem parse_row {registry : Registry ε κ} {text : String} {root : Node ε κ}
    (parsed : parse registry config text = .ok root) :
    root = .covering (.ofText text) (Cursor.ofText text).finish none .script root.children ∧
      DerivesWhole registry config text.toList root.children := by
  rw [parse, searchText] at parsed
  dsimp only at parsed
  split at parsed
  next nodes found =>
    cases parsed
    have nothing : Derived { registry, config, completing := false } text.toList [] := by
      simp [Derived]
    have ensured := readScript_derives
      (readType_derives text.toList _ { registry, config, completing := false })
    exact ⟨rfl, (ensured { failure := { place := Cursor.ofText text } } nothing).1 nodes found⟩
  next => cases parsed

/-- The tree derives the whole text: it is a row of sentences with a gap between any two of them,
its leaves make up the text, and every node in it shows what its span cuts out, which is all that it
covers. -/
structure DerivesText (registry : Registry ε κ) (config : Config) (text : String)
    (root : Node ε κ) : Prop where
  row : ∃ count separated nodes,
    root = ⟨.script, none, ⟨0, Text.byteSize text.toList⟩, text, true, nodes⟩ ∧
      DerivesRow registry config (Cursor.ofText text) count (Cursor.ofText text).finish separated
        nodes ∧ (config.severalSentences = false → count ≤ 1)
  leaves : root.leafText = text
  shows : ∀ node : Node ε κ, node.Below root → node.Shows text.toList

/-- Whatever the grammar is, left recursion included, a tree is only found if it derives the
text. -/
theorem parse_sound {registry : Registry ε κ} {config : Config} {text : String} {root : Node ε κ}
    (parsed : parse registry config text = .ok root)
    (small : Text.byteSize text.toList < 2 ^ 32) : DerivesText registry config text root := by
  obtain ⟨covers, count, separated, row, bound⟩ := parse_row parsed
  have limit : Text.byteSize text.toList ≤ Span.limit := by
    unfold Span.limit
    omega
  have passes := Cursor.passes_finish (Cursor.ofText text)
  have span : (Cursor.ofText text).spanTo (Cursor.ofText text).finish =
      ⟨0, Text.byteSize text.toList⟩ := by
    simp [Cursor.spanTo, Span.ofOffsets, Cursor.ofText, Cursor.finish, Cursor.past, limit]
  rw [Node.covering_eq passes] at covers
  have whole : root =
      ⟨.script, none, ⟨0, Text.byteSize text.toList⟩, text, true, root.children⟩ := by
    rwa [span, Cursor.ofText, String.ofList_toList] at covers
  have shown : Shown text.toList (Cursor.ofText text) (Cursor.ofText text).finish [root] := by
    rw [covers]
    exact .parent limit (Cursor.in_start _) (row.shown limit (Cursor.in_start _)) passes .script
      none
  refine ⟨⟨count, separated, root.children, whole, row, bound⟩, ?_,
    shown.below root List.mem_cons_self⟩
  obtain ⟨word, passes', leaves⟩ := shown.leaves
  obtain rfl := passes.word_unique passes'
  simpa [Node.leafTexts, Cursor.ofText] using leaves

/-- Sentences are words of letters, each with any number of exclamation marks: a type that recurs
to the left. -/
def loudWords : Registry Empty Empty :=
  .ofItems [("word", [[.type "word", .literal "!" ⟨0, 0⟩],
    [.placeholder ⟨"letters", .builtin .letter, .oneOrMore, ⟨0, 0⟩⟩]])] [[.type "word"]]

theorem parse_sound_loudWords :
    ∃ root, parse loudWords {} "ab c" = .ok root ∧ DerivesText loudWords {} "ab c" root := by
  have succeeds : (parse loudWords {} "ab c").toBool = true := by decide +kernel
  cases parsed : parse loudWords {} "ab c" with
  | ok root => exact ⟨root, rfl, parse_sound parsed (by decide)⟩
  | error failure => simp [parsed, Except.toBool] at succeeds

end Matching
end SentenceGrammar
