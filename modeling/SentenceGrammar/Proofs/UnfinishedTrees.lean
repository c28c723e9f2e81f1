import SentenceGrammar.Proofs.CutLeaves
import SentenceGrammar.Proofs.EndedScans
import SentenceGrammar.Proofs.Layout
import SentenceGrammar.Proofs.ScriptCutOffs
import SentenceGrammar.Proofs.SentenceOrder

/-!
# The shape of unfinished trees

The end of the text cuts off one leaf, and with it the nodes around this leaf. In front of them
everything is complete, and nothing is behind them. Unfinished nodes are put together in many
places: behind the items of a pattern, behind the units of a repetition, around both, and behind
the sentences of a script. None of them leaves a gap, and what is remembered of a type or of a
repetition keeps its shape.

## Main result

`parseUnfinished_shape`: the shape of every tree of a text that is not finished.
-/
namespace SentenceGrammar

variable {ε κ : Type}

/-! ### Shapes of trees -/

/-- Nodes side by side: the first one begins at the first place, each other one where the one before
it ends, and the last one ends at the last place. Each covers what lies between its own places, and
has the span of these. -/
inductive Tiles : Cursor → Cursor → List (Node ε κ) → Prop where
  | nil (place : Cursor) : Tiles place place []
  | cons {start middle stop : Cursor} {node : Node ε κ} {nodes : List (Node ε κ)}
      (span : node.span = start.spanTo middle) (passes : start.Passes node.covered.toList middle)
      (rest : Tiles middle stop nodes) : Tiles start stop (node :: nodes)

namespace Node

/-- The children of the node, if it has any, tile what the node covers. -/
def Filled (node : Node ε κ) : Prop :=
  node.children ≠ [] → ∃ start stop, Tiles start stop [node] ∧ Tiles start stop node.children

/-- The node is incomplete because of its last child, and so on down to a leaf. Everything beside
these nodes is complete. -/
inductive Unfinished : Node ε κ → Prop where
  | leaf {node : Node ε κ} (incomplete : node.complete = false)
      (terminal : node.isTerminal = true) (alone : node.children = []) : Unfinished node
  | parent {node last : Node ε κ} {front : List (Node ε κ)} (incomplete : node.complete = false)
      (children : node.children = front ++ [last]) (beside : ∀ other ∈ front, other.Finished)
      (inner : Unfinished last) : Unfinished node

/-- If the node stands for a literal, then it shows only a beginning of it. -/
def FallsShort (node : Node ε κ) : Prop :=
  ∀ text, node.kind = .literal text → node.text.toList <+: text.toList ∧ node.text ≠ text

end Node

/-- The shape of a tree of a text that the end of the text cuts off. All nodes show slices of the text.
In a text of less than `2 ^ 32` bytes, what the leaves show makes up the text. -/
structure UnfinishedTree (text : List Char) (root : Node ε κ) : Prop where
  script : root.kind = .script
  span : root.span = Span.ofOffsets 0 (Text.byteSize text)
  chain : root.Unfinished
  ended : ∀ node : Node ε κ, node.Below root → node.complete = false →
    node.span.stop = root.span.stop ∧ node.FallsShort
  filled : ∀ node : Node ε κ, node.Below root → node.Filled
  sliced : root.Sliced text
  unclipped : Text.byteSize text < 2 ^ 32 → root.Unclipped
  leaves : Text.byteSize text < 2 ^ 32 → root.leafText = String.ofList text

variable {start middle stop : Cursor} {node : Node ε κ} {nodes others : List (Node ε κ)}

theorem Tiles.append (first : Tiles start middle nodes) (second : Tiles middle stop others) :
    Tiles start stop (nodes ++ others) := by
  induction first with
  | nil => exact second
  | cons span passes _ ih => exact .cons span passes (ih second)

theorem Tiles.passes (tiles : Tiles start stop nodes) : ∃ word, start.Passes word stop := by
  induction tiles with
  | nil place => exact ⟨[], .refl place⟩
  | cons _ passes _ ih =>
    obtain ⟨_, further⟩ := ih
    exact ⟨_, passes.trans further⟩

/-- The node goes on to a place and shows no whole literal, and its alternative is registered. -/
structure Node.EndsAt (registry : Registry ε κ) (place : Cursor) (node : Node ε κ) : Prop where
  stop : node.span.stop = (place.spanTo place).stop
  short : node.FallsShort
  registered : ∀ chosen, node.alternative? = some chosen → chosen ∈ registry.allAlternatives

theorem Node.Unfinished.incomplete (unfinished : node.Unfinished) : node.complete = false := by
  cases unfinished with
  | leaf incomplete _ _ => exact incomplete
  | parent incomplete _ _ _ => exact incomplete

namespace Matching

/-! ### Nodes without gaps -/

/-- There is no gap between the nodes, and none between those below them. They show slices of the text,
and all of the text there, as long as no offset is too large for a span. -/
structure Laid (start stop : Cursor) (nodes : List (Node ε κ)) : Prop where
  tiles : Tiles start stop nodes
  filled : ∀ root ∈ nodes, ∀ node : Node ε κ, node.Below root → node.Filled
  sliced : ∀ text, start.In text → ∀ root ∈ nodes, root.Sliced text
  unclipped : stop.offset ≤ Span.limit → ∀ root ∈ nodes, root.Unclipped
  leaves : stop.offset ≤ Span.limit → start.Passes (Node.leafTexts nodes).toList stop

namespace Laid

theorem nil (place : Cursor) : Laid (ε := ε) (κ := κ) place place [] :=
  ⟨.nil place, by simp, by simp, by simp, fun _ => .refl place⟩

theorem append (first : Laid start middle nodes) (second : Laid middle stop others) :
    Laid start stop (nodes ++ others) := by
  obtain ⟨_, front⟩ := first.tiles.passes
  obtain ⟨_, behind⟩ := second.tiles.passes
  constructor
  case tiles => exact first.tiles.append second.tiles
  case filled => exact List.forall_mem_append.mpr ⟨first.filled, second.filled⟩
  case sliced =>
    intro text inside
    exact List.forall_mem_append.mpr
      ⟨first.sliced text inside, second.sliced text (inside.passes front)⟩
  case unclipped =>
    intro small
    exact List.forall_mem_append.mpr
      ⟨first.unclipped (behind.offset_le.trans small), second.unclipped small⟩
  case leaves =>
    intro small
    rw [Node.leafTexts_append, String.toList_append]
    exact (first.leaves (behind.offset_le.trans small)).trans (second.leaves small)

/-- A leaf, or a node around others. -/
theorem singleton (span : node.span = start.spanTo stop)
    (passes : start.Passes node.covered.toList stop)
    (inner : node.children ≠ [] → Laid start stop node.children) : Laid start stop [node] := by
  have tiles : Tiles start stop [node] := .cons span passes (.nil stop)
  have whole (small : stop.offset ≤ Span.limit) : node.text = node.covered :=
    Node.text_of_small span passes small
  have below {child : Node ε κ} (listed : child ∈ node.children) := inner (List.ne_nil_of_mem listed)
  constructor
  case tiles => exact tiles
  case filled =>
    exact List.forall_mem_singleton.mpr
      (Node.forall_below (fun some => ⟨start, stop, tiles, (inner some).tiles⟩)
        fun child listed => (below listed).filled child listed)
  case sliced =>
    intro text inside
    exact List.forall_mem_singleton.mpr
      (Node.forall_below (Node.text_eq_slice inside span passes)
        fun child listed => (below listed).sliced text inside child listed)
  case unclipped =>
    intro small
    exact List.forall_mem_singleton.mpr
      (Node.forall_below (whole small)
        fun child listed => (below listed).unclipped small child listed)
  case leaves =>
    intro small
    have leaves : node.leafText = node.text := by
      by_cases alone : node.children = []
      · cases node
        cases alone
        rfl
      · rw [← whole small] at passes
        exact Node.leafText_eq (String.toList_inj.mp
          (((inner alone).leaves small).word_unique passes))
    simpa [Node.leafTexts, leaves, whole small] using passes

end Laid

/-- Complete nodes without gaps. -/
structure Whole (start stop : Cursor) (nodes : List (Node ε κ)) : Prop where
  laid : Laid start stop nodes
  finished : ∀ node ∈ nodes, node.Finished

theorem layout_whole : Layout (Whole (ε := ε) (κ := κ)) where
  nil place := ⟨.nil place, layout_finished.nil place⟩
  append before behind first second :=
    ⟨first.laid.append second.laid,
      layout_finished.append before behind first.finished second.finished⟩
  leaf kind name passes :=
    ⟨.singleton rfl (by simpa using passes) (absurd rfl), layout_finished.leaf kind name passes⟩
  parent kind name passes inner :=
    ⟨.singleton rfl (by simpa using passes) fun _ => inner.laid,
      layout_finished.parent kind name passes inner.finished⟩

/-! ### What is cut off -/

/-- Nodes from a place to the end of the text, of which the end cuts off the last. -/
structure CutFrom (registry : Registry ε κ) (start : Cursor) (nodes : List (Node ε κ)) : Prop where
  laid : Laid start start.finish nodes
  chain : ∃ front last, nodes = front ++ [last] ∧ (∀ other ∈ front, other.Finished) ∧
    last.Unfinished
  ended : ∀ root ∈ nodes, ∀ node : Node ε κ, node.Below root → node.complete = false →
    node.EndsAt registry start.finish

namespace CutFrom

variable {registry : Registry ε κ} {kind : NodeKind ε κ} {name : Option String}

/-- Complete nodes in front of those that are cut off. -/
theorem behind (whole : Whole start middle nodes) (cut : CutFrom registry middle others) :
    CutFrom registry start (nodes ++ others) := by
  obtain ⟨front, last, rfl, beside, unfinished⟩ := cut.chain
  obtain ⟨_, passes⟩ := whole.laid.tiles.passes
  have finish := passes.finish_eq
  refine ⟨whole.laid.append (finish ▸ cut.laid), ⟨nodes ++ front, last, ?_, ?_, unfinished⟩, ?_⟩
  · rw [List.append_assoc]
  · exact fun other member =>
      (List.mem_append.mp member).elim (whole.finished other) (beside other)
  · intro root member node below incomplete
    rcases List.mem_append.mp member with before | listed
    · rw [whole.finished root before node below] at incomplete
      cases incomplete
    · exact finish ▸ cut.ended root listed node below incomplete

theorem singleton_laid (inner : nodes ≠ [] → Laid start start.finish nodes) :
    Laid start start.finish [.cutOff start name kind nodes] :=
  .singleton rfl (by simpa [Node.cutOff] using start.passes_finish) inner

/-- A leaf that the end of the text cuts off. -/
theorem leaf (terminal : (Node.cutOff start name kind []).isTerminal = true)
    (short : (Node.cutOff start name kind []).FallsShort) :
    CutFrom registry start [.cutOff start name kind []] := by
  refine ⟨singleton_laid (absurd rfl), ⟨[], _, rfl, by simp, .leaf rfl terminal rfl⟩, ?_⟩
  intro root member node below _
  obtain rfl := List.mem_singleton.mp member
  rcases Node.below_iff.mp below with rfl | ⟨child, listed, -⟩
  · refine ⟨rfl, short, fun chosen same => ?_⟩
    simp only [Node.isTerminal, Node.alternative?] at terminal same
    split at same <;> simp_all
  · cases listed

/-- A node around nodes that are cut off. -/
theorem around (cut : CutFrom registry start nodes) (other : ∀ text, kind ≠ .literal text)
    (registered : ∀ chosen, kind = .alternative chosen → chosen ∈ registry.allAlternatives) :
    CutFrom registry start [.cutOff start name kind nodes] := by
  obtain ⟨front, last, rfl, beside, unfinished⟩ := cut.chain
  refine ⟨singleton_laid fun _ => cut.laid, ⟨[], _, rfl, by simp,
    .parent rfl rfl beside unfinished⟩, ?_⟩
  intro root member node below incomplete
  obtain rfl := List.mem_singleton.mp member
  rcases Node.below_iff.mp below with rfl | ⟨child, listed, further⟩
  · refine ⟨rfl, fun text same => absurd same (other text), fun chosen same => ?_⟩
    rw [Node.alternative?] at same
    split at same
    next chosen' kind => exact registered _ (kind.trans (congrArg _ (Option.some.inj same)))
    next => cases same
  · exact cut.ended child listed node further incomplete

end CutFrom

/-! ### Terminals -/

variable {text : List Char} {kept : Known ε κ → Prop} {scope : Scope ε κ} {named : TypeReader ε κ}

theorem mem_keep {α : Type} {cut wanted : α} (member : cut ∈ scope.keep wanted) : cut = wanted := by
  rw [Scope.keep] at member
  exact List.mem_singleton.mp (List.mem_ite_nil_right.mp member).2

theorem readLiteral_cuts (literal : String) :
    Ensures kept (readLiteral scope literal start) fun readings =>
      ∀ node ∈ readings.cut, CutFrom scope.registry start [node] := by
  rw [readLiteral]
  cases scanned : scanLiteral literal.toList start with
  | whole stop => exact .pure (by simp)
  | differs place missing => exact .afterExpect (.pure (by simp))
  | ended missing =>
    refine .afterExpect (.pure fun node member => ?_)
    obtain rfl := mem_keep member
    refine .leaf rfl fun text same => ?_
    obtain rfl := NodeKind.literal.inj same
    obtain ⟨some, parts⟩ := scanLiteral_ended scanned
    have shown := Node.text_prefix (Node.cutOff start none (.literal literal) [] : Node ε κ)
    rw [Node.cutOff, String.toList_ofList] at shown
    -- The literal goes on with what is missing.
    refine ⟨parts ▸ shown.trans (List.prefix_append _ _), fun whole => some ?_⟩
    have short := shown.length_le
    rw [← Node.cutOff, whole, parts, List.length_append] at short
    exact List.length_eq_zero_iff.mp (by omega)

/-- Numbers and characters are no literals. -/
theorem CutFrom.characters {kind : NodeKind ε κ} {name : Option String}
    (terminal : kind = .run ∨ ∃ type, kind = .builtin type) :
    CutFrom scope.registry start [.cutOff start name kind []] := by
  rcases terminal with rfl | ⟨type, rfl⟩
  · exact .leaf rfl fun text same => by cases same
  · exact .leaf rfl fun text same => by cases same

theorem readRun_cuts (slot : Placeholder) (accepts : Char → Bool) (expected : Expected) :
    Ensures kept (readRun scope slot accepts expected slot.runKind start) fun readings =>
      ∀ node ∈ readings.cut, CutFrom scope.registry start [node] := by
  rw [readRun]
  split
  refine .perhapsExpect fun _ => .pure fun node member => ?_
  obtain rfl := mem_keep (List.mem_ite_nil_right.mp member).2
  exact .characters (runKind_terminal slot)

theorem readNumber_cuts (slot : Placeholder) (type : Builtin) :
    Ensures kept (readNumber scope slot type start) fun readings =>
      ∀ node ∈ readings.cut, CutFrom scope.registry start [node] := by
  rw [readNumber]
  refine .perhapsExpect fun _ => .pure fun node member => ?_
  obtain rfl := mem_keep (List.mem_ite_nil_right.mp member).2
  exact .characters (.inr ⟨type, rfl⟩)

/-! ### Items -/

/-- Alternatives that are registered, each with what the end of the text cuts off of it. -/
def CutAlternatives (registry : Registry ε κ) (place : Cursor)
    (cuts : List (Alternative ε κ × List (Node ε κ))) : Prop :=
  ∀ cut ∈ cuts, cut.1 ∈ registry.allAlternatives ∧ CutFrom registry place cut.2

/-- A node for an alternative that is cut off. -/
theorem CutAlternatives.around {registry : Registry ε κ}
    {cuts : List (Alternative ε κ × List (Node ε κ))} (shaped : CutAlternatives registry start cuts)
    {cut : Alternative ε κ × List (Node ε κ)} (member : cut ∈ cuts) (name : Option String) :
    CutFrom registry start [.cutOff start name (.alternative cut.1) cut.2] := by
  obtain ⟨registered, cutFrom⟩ := shaped cut member
  refine cutFrom.around (by simp) fun chosen same => ?_
  obtain rfl := NodeKind.alternative.inj same
  exact registered

variable (text kept scope named) in
/-- What is read of a type derives if it is whole, and goes on to the end of the text otherwise. -/
def NamedCuts : Prop :=
  ∀ name (place : Cursor), place.In text → Ensures kept (named scope name place) fun readings =>
    FindsDerived scope.registry.alternatives scope.config name place readings ∧
      CutAlternatives scope.registry place readings.cut

theorem NamedCuts.sound (cuts : NamedCuts text kept scope named) :
    NamedSound scope.registry.alternatives text kept scope named :=
  fun name place inside => (cuts name place inside).weaken fun _ holds => holds.1

theorem readUnit_cuts (cuts : NamedCuts text kept scope named) (slot : Placeholder)
    (inside : start.In text) :
    Ensures kept (readUnit scope named slot start) fun readings =>
      ∀ node ∈ readings.cut, CutFrom scope.registry start [node] := by
  rw [readUnit]
  split
  · exact readNumber_cuts slot _
  next type target =>
    rw [readNamed]
    split
    · refine (cuts type start inside).bind fun readings shaped => .pure fun node member => ?_
      obtain ⟨cut, listed, rfl⟩ := List.mem_map.mp member
      exact shaped.2.around listed (some slot.name)
    · exact .afterExpect (.pure (by simp))
  · exact .pure (by simp)

theorem readSeparator_cuts (done : Nat) :
    Ensures kept (readSeparator scope done start) fun chains =>
      ∀ nodes ∈ chains.cut, CutFrom scope.registry start nodes := by
  rw [readSeparator]
  split
  · split
    · exact .pure (by simp)
    · refine (readLiteral_cuts _).bind fun readings shaped => .pure fun nodes member => ?_
      obtain ⟨node, listed, rfl⟩ := List.mem_map.mp member
      exact shaped node listed
  · exact .pure (by simp)

/-- Every entry of what a repetition remembers is cut off by the end from its own place on. -/
def RepeatedCuts (registry : Registry ε κ) (text : List Char) (known : Repeated ε κ) : Prop :=
  ∀ entry ∈ known, ∀ place : Cursor, place.In text → place.offset = entry.1.1 →
    ∀ nodes ∈ entry.2.cut, CutFrom registry place nodes

theorem readRepeated_cuts (cuts : NamedCuts text kept scope named) {slot : Placeholder}
    (several : slot.target.single? = none) (steps done : Nat) (inside : start.In text) :
    EnsuresWith kept (RepeatedCuts scope.registry text)
      (readRepeated scope (readUnit scope named slot) slot.quantifier steps done start)
      fun chains => ∀ nodes ∈ chains.cut, CutFrom scope.registry start nodes := by
  induction steps generalizing done start with
  | zero => exact .pure (by simp)
  | succ steps ih =>
    rw [readRepeated]
    refine EnsuresWith.get.bind fun known entries => ?_
    split
    next chains found => exact .pure (entries _ (mem_of_lookup found) start inside rfl)
    next =>
      extract_lets here finish
      -- All ways to end are the same: what was cut off is remembered and returned.
      have finished (further : Chains ε κ)
          (shaped : ∀ nodes ∈ further.cut, CutFrom scope.registry start nodes) :
          EnsuresWith kept (RepeatedCuts scope.registry text) (finish further)
            fun chains => ∀ nodes ∈ chains.cut, CutFrom scope.registry start nodes := by
        refine (EnsuresWith.modify fun known entries => ?_).bind fun _ _ => .pure shaped
        refine List.forall_mem_cons.mpr ⟨fun place inside' same => ?_, entries⟩
        obtain rfl := inside'.eq_of_offset inside same
        exact shaped
      simp only [pure_bind]
      split
      case isFalse => exact finished _ (by simp)
      refine (EnsuresWith.lift ((readSeparator_cuts done).and
        (readSeparator_openings done))).bind fun opening both => ?_
      obtain ⟨opened, openings⟩ := both
      split
      next => exact finished _ opened
      next first others whole =>
        have separator : Opening scope.config done start first.stop first.nodes := by
          rw [← mem_openings]
          exact openings ▸ whole ▸ List.mem_cons_self
        obtain ⟨_, before⟩ := separator.passes
        have there := inside.passes before
        have front := layout_whole.opening separator
        refine (EnsuresWith.lift ((readUnit_cuts cuts slot there).and
          (readUnit_derives cuts.sound several there))).bind fun units both => ?_
        obtain ⟨unfinished, derived⟩ := both
        refine (EnsuresWith.mapM
          (fun _ tails => ∀ nodes ∈ tails.cut, CutFrom scope.registry start nodes)
          fun found member => ?each).bind fun tails related => finished _ fun nodes member => ?cut
        case each =>
          split
          · exact .pure (by simp)
          -- A tail that is cut off stands behind a whole unit.
          · have unit := derived found member
            obtain ⟨_, behind⟩ := unit.passes
            have whole := layout_whole.append before behind front (layout_whole.unit unit)
            refine (ih _ (inside.passes (before.trans behind))).bind fun rest shaped =>
              .pure fun nodes member => ?_
            obtain ⟨tail, listed, rfl⟩ := List.mem_map.mp member
            exact (shaped tail listed).behind whole
        case cut =>
          rcases List.mem_append.mp member with early | late
          · rcases List.mem_append.mp early with separator | unit
            · exact opened nodes separator
            · obtain ⟨node, listed, rfl⟩ := List.mem_map.mp unit
              exact (unfinished node listed).behind front
          · obtain ⟨tail, listed, member⟩ := List.mem_flatMap.mp late
            obtain ⟨_, _, shaped⟩ := exists_of_forall₂ related listed
            exact shaped nodes member

theorem readItem_cuts (cuts : NamedCuts text kept scope named) (item : Item)
    (inside : start.In text) :
    Ensures kept (readItem scope named item start) fun readings =>
      ∀ node ∈ readings.cut, CutFrom scope.registry start [node] := by
  cases item with
  | literal literal span => exact readLiteral_cuts literal
  | placeholder slot =>
    rw [readItem]
    cases single : slot.target.single? with
    | some accepts =>
      rw [readPlaceholder_run scope named start single]
      exact readRun_cuts slot accepts _
    | none =>
      rw [readPlaceholder_several single]
      split
      · exact readUnit_cuts cuts slot inside
      · rw [readRepetition]
        have repeated := readRepeated_cuts cuts single (start.rest.length + 1) 0 inside
        refine (repeated [] (by simp [RepeatedCuts])).bind fun result shaped =>
          .pure fun node member => ?_
        obtain ⟨nodes, listed, rfl⟩ := List.mem_map.mp member
        exact (shaped.1 nodes listed).around (by simp) (by simp)

theorem readItems_cuts (cuts : NamedCuts text kept scope named) (items : List Item)
    {chains : List (Chain ε κ)} (inside : start.In text)
    (whole : ∀ chain ∈ chains, Whole start chain.stop chain.nodes) :
    Ensures kept (readItems scope named items chains) fun found =>
      ∀ nodes ∈ found.cut, CutFrom scope.registry start nodes := by
  induction items generalizing chains with
  | nil => exact .pure (by simp)
  | cons item rest ih =>
    rw [readItems]
    refine (Ensures.mapM (fun chain found => found.1 = chain ∧
        (∀ node ∈ found.2.cut, CutFrom scope.registry chain.stop [node]) ∧ ∀ reading ∈ found.2.whole,
          DerivesItem scope.registry.alternatives scope.config item chain.stop reading.stop
            reading.node) fun chain member => ?each).bind fun found related => ?behind
    case each =>
      obtain ⟨_, passes⟩ := (whole chain member).laid.tiles.passes
      have reached := inside.passes passes
      exact ((readItem_cuts cuts item reached).and (readItem_derives cuts.sound item reached)).bind
        fun readings both => .pure ⟨rfl, both⟩
    case behind =>
      refine (ih fun chain member => ?_).bind fun behind shaped => .pure fun nodes member => ?_
      · obtain ⟨before, earlier, after, ⟨-, -, derived⟩, reading, read, rfl⟩ :=
          exists_before related (fun _ _ holds => holds.1) member
        have item := derived reading read
        obtain ⟨_, front⟩ := (whole _ earlier).laid.tiles.passes
        obtain ⟨_, passes⟩ := item.passes
        exact layout_whole.append front passes (whole _ earlier) (layout_whole.item item)
      · rcases List.mem_append.mp member with here | later
        · simp only [List.mem_flatMap, List.mem_map] at here
          obtain ⟨⟨_, readings⟩, registered, node, listed, rfl⟩ := here
          obtain ⟨before, earlier, rfl, shaped, -⟩ := exists_of_forall₂ related registered
          exact (shaped node listed).behind (whole _ earlier)
        · exact shaped nodes later

theorem readAlternatives_cuts (cuts : NamedCuts text kept scope named)
    {alternatives : List (Alternative ε κ)} (among : alternatives ⊆ scope.registry.allAlternatives)
    (inside : start.In text) :
    Ensures kept (readAlternatives scope named alternatives start) fun readings =>
      CutAlternatives scope.registry start readings.cut := by
  rw [readAlternatives]
  refine (Ensures.mapM (fun alternative found => found.1 = alternative ∧
      ∀ nodes ∈ found.2.cut, CutFrom scope.registry start nodes)
    fun alternative _ => ?each).bind fun found related => .pure fun cut member => ?cut
  case each =>
    have alone : ∀ chain ∈ ([⟨start, []⟩] : List (Chain ε κ)),
        Whole start chain.stop chain.nodes := by
      intro chain member
      obtain rfl := List.mem_singleton.mp member
      exact layout_whole.nil start
    exact (readItems_cuts cuts alternative.pattern.items inside alone).bind
      fun chains shaped => .pure ⟨rfl, shaped⟩
  case cut =>
    simp only [List.mem_flatMap, List.mem_map] at member
    obtain ⟨⟨_, chains⟩, read, nodes, listed, rfl⟩ := member
    obtain ⟨alternative, tried, rfl, shaped⟩ := exists_of_forall₂ related read
    exact ⟨among tried, shaped nodes listed⟩

/-! ### Types -/

/-- What is remembered of a type is either whole and derives, or it is cut off, at all places with
its offset. -/
structure EntryShaped (registry : Registry ε κ) (config : Config) (text : List Char)
    (entry : (String × Nat) × TypeReadings ε κ) : Prop where
  derives : EntryDerives registry.alternatives config text entry
  cuts : ∀ place : Cursor, place.In text → place.offset = entry.1.2 →
    CutAlternatives registry place entry.2.cut

/-- Everything that is remembered has its shape. -/
def Shaped (scope : Scope ε κ) (text : List Char) (known : Known ε κ) : Prop :=
  ∀ entry ∈ known, EntryShaped scope.registry scope.config text entry

theorem readType_cuts (text : List Char) (levels : Nat) (scope : Scope ε κ) :
    NamedCuts text (Shaped scope text) scope (readType levels) := by
  induction levels generalizing scope with
  | zero => exact fun name place _ => .pure (by simp [FindsDerived, CutAlternatives])
  | succ levels ih =>
    intro name place inside
    rw [readType]
    refine (Ensures.lookUp name place).bind fun found entry => ?_
    split
    next known =>
      have shaped := entry known rfl
      exact .pure ⟨shaped.derives place inside rfl, shaped.cuts place inside rfl⟩
    next =>
      split
      · exact .pure (by simp [FindsDerived, CutAlternatives])
      · have inner := ih { scope with active := scope.active ++ [(name, place.offset)] }
        refine ((readAlternatives_derives inner.sound _ inside).and
          (readAlternatives_cuts inner (alternatives_subset _ name) inside)).bind
            fun readings holds => ?_
        refine Ensures.bind (Ensures.remember ⟨fun other inside' same => ?_,
          fun other inside' same => ?_⟩) fun _ _ => .pure holds
        · obtain rfl := inside'.eq_of_offset inside same
          exact holds.1
        · obtain rfl := inside'.eq_of_offset inside same
          exact holds.2

/-! ### Scripts -/

theorem advance_cuts (cuts : NamedCuts text kept scope named) {first : Bool} {step : Step ε κ}
    (reached : Reached scope text first step) :
    Ensures kept (advance scope named first step) fun found =>
      ∀ nodes ∈ found.2, CutFrom scope.registry ⟨0, text⟩ nodes := by
  have inside := reached.inside
  obtain ⟨_, row, -⟩ := reached
  rw [advance]
  dsimp only
  split
  · have among := List.subset_append_right (scope.registry.types.flatMap TypeEntry.alternatives)
      scope.registry.sentences
    refine .perhapsExpect fun _ => (readAlternatives_cuts cuts among inside).bind
      fun readings shaped => .pure fun nodes member => ?_
    obtain ⟨cut, listed, rfl⟩ := List.mem_map.mp member
    exact (shaped.around listed none).behind (layout_whole.row row)
  · exact .perhapsExpect fun _ => .pure (by simp)

theorem rounds_cuts (cuts : NamedCuts text kept scope named) (left : Nat) (first : Bool)
    (seen : List Nat) (frontier : List (Step ε κ)) (readings : ScriptReadings ε κ)
    (reached : ∀ step ∈ frontier, Reached scope text first step)
    (shaped : ∀ nodes ∈ readings.cut, CutFrom scope.registry ⟨0, text⟩ nodes) :
    Ensures kept (rounds scope named left first seen frontier readings) fun readings =>
      ∀ nodes ∈ readings.cut, CutFrom scope.registry ⟨0, text⟩ nodes := by
  induction left generalizing first seen frontier readings with
  | zero => exact .pure shaped
  | succ left ih =>
    unfold rounds
    extract_lets whole finish
    split
    · exact .pure shaped
    · split
      · split
        · exact Ensures.bind (.forM fun _ _ => .expect _ _ _) fun _ _ => .pure shaped
        · exact .pure shaped
      next going =>
        have further := Decidable.not_not.mp (not_or.mp going).2
        refine (Ensures.mapM (fun _ found =>
          (∀ nodes ∈ found.2, CutFrom scope.registry ⟨0, text⟩ nodes) ∧
            ∀ step ∈ found.1, Reached scope text false step) fun step member =>
          (advance_cuts cuts (reached step member)).and
            (advance_reaches cuts.sound (reached step member) further)).bind
              fun found related => ih _ _ _ _ (fun step kept => ?_) fun nodes member => ?_
        · obtain ⟨_, _, _, ⟨-, reaches⟩, taken⟩ := exists_taken related kept
          exact reaches step taken
        · rcases List.mem_append.mp member with before | now
          · exact shaped nodes before
          · obtain ⟨after, registered, listed⟩ := List.mem_flatMap.mp now
            obtain ⟨_, _, shaped, -⟩ := exists_of_forall₂ related registered
            exact shaped nodes listed

theorem scriptRun_cuts (registry : Registry ε κ) (config : Config) (completing : Bool)
    (text : List Char) :
    ∀ nodes ∈ (scriptRun registry config completing text).1.cut,
      CutFrom registry ⟨0, text⟩ nodes := by
  refine (rounds_cuts (readType_cuts text _ ⟨registry, config, completing, []⟩) _ true _ _ {}
    (fun step member => ?_) (by simp) (.start text) ?_).1
  · exact List.mem_singleton.mp member ▸ firstStep_reached
  · simp [Shaped, Progress.start]

theorem CutFrom.unfinishedTree {registry : Registry ε κ} (cut : CutFrom registry ⟨0, text⟩ nodes) :
    UnfinishedTree text (.cutOff ⟨0, text⟩ none .script nodes) := by
  have root : CutFrom registry ⟨0, text⟩ [.cutOff ⟨0, text⟩ none .script nodes] :=
    cut.around (by simp) (by simp)
  obtain ⟨front, last, same, -, unfinished⟩ := root.chain
  obtain ⟨-, only⟩ := List.append_inj' (List.nil_append _ |>.trans same) rfl
  obtain rfl := List.singleton_inj.mp only
  have stop := (Cursor.in_start text).finish_offset
  refine ⟨rfl, by rw [← stop]; rfl, unfinished, fun node below incomplete => ?_,
    root.laid.filled _ List.mem_cons_self, root.laid.sliced text (Cursor.in_start text) _
      List.mem_cons_self, fun small => ?_, fun small => ?_⟩
  · have ended := root.ended _ List.mem_cons_self node below incomplete
    exact ⟨ended.stop, ended.short⟩
  · exact root.laid.unclipped (Cursor.finish_le_limit small) _ List.mem_cons_self
  · have passes := root.laid.leaves (Cursor.finish_le_limit small)
    have leaves := passes.word_unique (Cursor.passes_finish ⟨0, text⟩)
    simpa [Node.leafTexts, ← String.toList_inj] using leaves

end Matching

namespace Parser

variable {σ : Type}

theorem unfinishedTree_of_root {registry : Registry ε κ} {config : Config} {surroundings : σ}
    {text : String} {cursor : Nat} {roots : List (Node ε κ)}
    (found : outcome (parseUnfinished text cursor) registry config surroundings = .ok roots)
    {root : Node ε κ} (listed : root ∈ roots) :
    UnfinishedTree (textBefore text cursor).toList root := by
  obtain ⟨nodes, cut, rfl⟩ := exists_cut_of_root found listed
  exact (Matching.scriptRun_cuts registry config true _ nodes cut).unfinishedTree

/-- Whatever the grammar and the text are: the trees that are not finished cover the text up to the
cursor without a gap, and each of them is incomplete along one path, which goes down its last nodes
to a leaf. -/
theorem parseUnfinished_shape {registry : Registry ε κ} {config : Config} {surroundings : σ}
    {text : String} {cursor : Nat} {roots : List (Node ε κ)}
    (found : outcome (parseUnfinished text cursor) registry config surroundings = .ok roots) :
    ∀ root ∈ roots, UnfinishedTree (textBefore text cursor).toList root :=
  fun _ listed => unfinishedTree_of_root found listed

theorem parseUnfinished_shape_calls :
    ∃ roots, outcome (parseUnfinished "ab é?" 5) Matching.calls {} () = .ok roots ∧
      roots.length = 3 ∧ ∀ root ∈ roots, UnfinishedTree (textBefore "ab é?" 5).toList root := by
  have several : (outcome (parseUnfinished "ab é?" 5) Matching.calls {} ()).toOption.map
      List.length = some 3 := by decide +kernel
  cases found : outcome (parseUnfinished "ab é?" 5) Matching.calls {} () with
  | ok roots =>
    rw [found] at several
    exact ⟨roots, rfl, Option.some.inj several, parseUnfinished_shape found⟩
  | error failure =>
    rw [found] at several
    cases several

end Parser
end SentenceGrammar
