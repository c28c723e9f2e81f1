import SentenceGrammar.Proofs.UnfinishedTrees
import SentenceGrammar.Proofs.Variables

/-!
# What lies below a script

In a tree that shows a whole text, every node was read at an item of a pattern, as a unit of a
repetition, or is a separator between two units, and then nothing is below it. Nowhere is there a
gap between nodes, also not in a tree that the end of the text cuts off.
-/
namespace SentenceGrammar

variable {ε κ : Type}

namespace Node

/-- A path leads to a node below. -/
theorem below_of_at? {path : Path} : {node below : Node ε κ} → node.at? path = some below →
    below.Below node := by
  induction path with
  | nil => rintro node _ ⟨⟩; exact .refl
  | cons index path ih =>
    intro node below found
    obtain ⟨child, atIndex, found⟩ := Option.bind_eq_some_iff.mp found
    exact below_iff.mpr (.inr ⟨child, List.mem_of_getElem? atIndex, ih found⟩)

theorem Unclipped.of_find? {node found : Node ε κ} {name : String} {path : Path}
    (unclipped : node.Unclipped) (search : node.find? name = some (path, found)) :
    found.Unclipped :=
  unclipped.below (below_of_at? (find?_at? search).1)

/-- A tree of a text: of all of it, or of a beginning that is not finished. -/
inductive IsParsed (registry : Registry ε κ) (config : Config) : Node ε κ → Prop where
  | whole {text : String} {root : Node ε κ} (parsed : Matching.parse registry config text = .ok root) :
      IsParsed registry config root
  | begun {text : String} {roots : List (Node ε κ)} {root : Node ε κ}
      (found : Matching.unfinished registry config text = .ok roots) (listed : root ∈ roots) :
      IsParsed registry config root

end Node

namespace Matching

variable {rules : String → List (Alternative ε κ)} {config : Config} {registry : Registry ε κ}
  {start stop : Cursor} {node root : Node ε κ} {nodes : List (Node ε κ)} {text : String}

/-! ### Nodes and how they were read -/

variable (rules config) in
/-- The ways to read a node below a script. -/
inductive DerivesNode : Node ε κ → Prop where
  | item {item : Item} {start stop : Cursor} {node : Node ε κ}
      (derived : DerivesItem rules config item start stop node) : DerivesNode node
  | unit {slot : Placeholder} {start stop : Cursor} {node : Node ε κ}
      (derived : DerivesUnit rules config slot start stop node) : DerivesNode node
  | separator {count : Nat} {start stop : Cursor} {node : Node ε κ}
      (opening : Opening config count start stop [node]) : DerivesNode node
  | sentence {start : Cursor} {word : List Char} {reading : TypeReading ε κ}
      (derived : DerivesItems rules config reading.chosen.pattern.items start reading.stop
        reading.children) :
      DerivesNode ⟨.alternative reading.chosen, none, start.spanTo reading.stop, String.ofList word,
        true, reading.children⟩
  | gap {start stop : Cursor} {node : Node ε κ} (blank : DerivesGap start stop [node]) :
      DerivesNode node

variable (rules config) in
/-- How a node was read, by what it stands for. -/
inductive ReadAs (node : Node ε κ) : Prop where
  | unit {slot : Placeholder} {start stop : Cursor}
      (derived : DerivesUnit rules config slot start stop node) : ReadAs node
  | alternative {chosen : Alternative ε κ} {start stop : Cursor}
      (kind : node.kind = .alternative chosen)
      (items : DerivesItems rules config chosen.pattern.items start stop node.children) :
      ReadAs node
  | repetition {slot : Placeholder} {total : Nat} {start stop : Cursor}
      (kind : node.kind = .repetition slot.quantifier)
      (count : slot.quantifier.admits total = true)
      (units : DerivesUnits rules config slot 0 total start stop node.children) : ReadAs node
  | run {slot : Placeholder} {accepts : Char → Bool} (kind : node.kind = slot.runKind)
      (single : slot.target.single? = some accepts) : ReadAs node
  | literal {text : String} (kind : node.kind = .literal text) : ReadAs node
  | gap (kind : node.kind = .gap) : ReadAs node

theorem Opening.derivesNodes {count : Nat} (opening : Opening config count start stop nodes) :
    ∀ node ∈ nodes, DerivesNode rules config node := by
  cases opening with
  | first | adjacent => nofun
  | separated further separator passes =>
    exact List.forall_mem_singleton.mpr (.separator (.separated further separator passes))

theorem DerivesUnits.derivesNodes : ∀ {slot : Placeholder} {count total : Nat} {start stop : Cursor}
    {nodes : List (Node ε κ)}, DerivesUnits rules config slot count total start stop nodes →
      ∀ node ∈ nodes, DerivesNode rules config node
  | _, _, _, _, _, _, .done _ _ _ => nofun
  | _, _, _, _, _, _, .more separator unit _ rest => List.forall_mem_append.mpr
    ⟨separator.derivesNodes, List.forall_mem_cons.mpr ⟨.unit unit, rest.derivesNodes⟩⟩

theorem DerivesItems.derivesNodes : ∀ {items : List Item} {start stop : Cursor} {nodes : List (Node ε κ)},
    DerivesItems rules config items start stop nodes →
      ∀ node ∈ nodes, DerivesNode rules config node
  | _, _, _, _, .nil _ => nofun
  | _, _, _, _, .cons first others => List.forall_mem_cons.mpr ⟨.item first, others.derivesNodes⟩

namespace DerivesNode

/-- A unit stands on its own, or around what was read by the pattern of a type. -/
theorem child_unit {slot : Placeholder} (derived : DerivesUnit rules config slot start stop node) :
    ∀ child ∈ node.children, DerivesNode rules config child := by
  cases derived with
  | number => nofun
  | type _ _ items _ => exact items.derivesNodes

theorem child (derived : DerivesNode rules config node) :
    ∀ child ∈ node.children, DerivesNode rules config child := by
  cases derived with
  | item derived =>
    cases derived with
    | literal | run => nofun
    | single _ _ unit => exact child_unit unit
    | repetition _ _ _ units _ => exact units.derivesNodes
  | unit derived => exact child_unit derived
  | separator opening => cases opening with | separated => nofun
  | sentence derived => exact derived.derivesNodes
  | gap blank => cases blank with | some => nofun

theorem below {lower : Node ε κ} (derived : DerivesNode rules config node)
    (below : lower.Below node) : DerivesNode rules config lower := by
  induction below with
  | refl => exact derived
  | tail _ listed ih => exact ih.child _ listed

theorem readAs (derived : DerivesNode rules config node) : ReadAs rules config node := by
  cases derived with
  | item derived =>
    cases derived with
    | literal => exact .literal rfl
    | run target => exact .run rfl target
    | single _ _ unit => exact .unit unit
    | repetition _ _ count units _ => exact .repetition rfl count units
  | unit derived => exact .unit derived
  | separator opening => cases opening with | separated => exact .literal rfl
  | sentence derived => exact .alternative rfl derived
  | gap blank => cases blank with | some => exact .gap rfl

/-- The children of an alternative were read by its pattern. -/
theorem children_alternative {chosen : Alternative ε κ} (derived : DerivesNode rules config node)
    (kind : node.kind = .alternative chosen) : ∃ start stop,
      DerivesItems rules config chosen.pattern.items start stop node.children := by
  cases derived.readAs with
  | unit derived =>
    cases derived with
    | number => cases kind
    | type _ _ items _ =>
      cases kind
      exact ⟨_, _, items⟩
  | alternative same items =>
    cases kind.symm.trans same
    exact ⟨_, _, items⟩
  | @run slot _ same _ =>
    rcases runKind_terminal slot with run | ⟨_, run⟩
    all_goals cases (kind.symm.trans same).trans run
  | repetition same | literal same | gap same => cases kind.symm.trans same

/-- A repetition was read at a placeholder that may be filled any number of times, by as many units
as its quantifier admits. -/
theorem children_repetition {quantifier : Quantifier} (derived : DerivesNode rules config node)
    (kind : node.kind = .repetition quantifier) : ∃ slot total start stop,
      slot.quantifier = quantifier ∧ quantifier.admits total = true ∧
        DerivesUnits rules config slot 0 total start stop node.children := by
  cases derived.readAs with
  | unit derived => cases derived <;> cases kind
  | repetition same count units =>
    cases kind.symm.trans same
    exact ⟨_, _, _, _, rfl, count, units⟩
  | @run slot _ same _ =>
    rcases runKind_terminal slot with run | ⟨_, run⟩
    all_goals cases (kind.symm.trans same).trans run
  | alternative same | literal same | gap same => cases kind.symm.trans same

end DerivesNode

/-! ### Trees of texts -/

theorem DerivesGap.derivesNodes (gap : DerivesGap start stop nodes) :
    ∀ node ∈ nodes, DerivesNode rules config node := by
  cases gap with
  | none => nofun
  | some nonempty blank passes =>
    exact List.forall_mem_singleton.mpr (.gap (.some nonempty blank passes))

theorem DerivesRow.derivesNodes {count : Nat} {separated : Bool}
    (row : DerivesRow registry config start count stop separated nodes) :
    ∀ node ∈ nodes, DerivesNode registry.alternatives config node := by
  induction row with
  | leading blank => exact blank.derivesNodes
  | sentence _ derived _ blank ih =>
    exact List.forall_mem_append.mpr
      ⟨ih, List.forall_mem_cons.mpr ⟨.sentence derived.2, blank.derivesNodes⟩⟩

/-- A node that is seen in the tree of a text, if the text has a tree. -/
theorem exists_parsed {α : Type} {see : Node ε κ → α} {path : Node.Path} {seen : α}
    (read : ((parse registry config text).toOption.bind fun root => (root.at? path).map see) =
      some seen) :
    ∃ root node, parse registry config text = .ok root ∧ root.at? path = some node ∧
      see node = seen := by
  cases parsed : parse registry config text with
  | error failure => simp [parsed, Except.toOption] at read
  | ok root =>
    simp only [parsed, Except.toOption, Option.bind_some] at read
    obtain ⟨node, found, same⟩ := Option.map_eq_some_iff.mp read
    exact ⟨root, node, rfl, found, same⟩

/-- Every node below a whole script was read in one of the ways there are. -/
theorem parse_nodes (parsed : parse registry config text = .ok root) (below : node.Below root) :
    node.kind = .script ∨ DerivesNode registry.alternatives config node := by
  obtain ⟨whole, count, separated, row, -⟩ := parse_row parsed
  rcases Node.below_iff.mp below with rfl | ⟨child, listed, further⟩
  · rw [whole]
    exact .inl rfl
  · exact .inr ((row.derivesNodes child listed).below further)

theorem parse_laid (parsed : parse registry config text = .ok root) :
    Laid (.ofText text) (Cursor.ofText text).finish [root] := by
  obtain ⟨whole, count, separated, row, -⟩ := parse_row parsed
  have passes := Cursor.passes_finish (Cursor.ofText text)
  rw [whole, Node.covering_eq passes]
  exact .singleton rfl (by simpa using passes) fun _ => (layout_whole.row row).laid

/-- In a tree of a whole text of less than `2 ^ 32` bytes, the nodes show all that they cover. -/
theorem parse_unclipped (parsed : parse registry config text = .ok root)
    (small : Text.byteSize text.toList < 2 ^ 32) : root.Unclipped :=
  (parse_laid parsed).unclipped (Cursor.finish_le_limit small) root List.mem_cons_self

theorem sentence_unclipped (parsed : parse registry config text = .ok root)
    (small : Text.byteSize text.toList < 2 ^ 32) (listed : node ∈ root.sentences) :
    node.Unclipped :=
  (parse_unclipped parsed small).below (.single (List.mem_filter.mp listed).1)

/-- There are no gaps between the nodes of a tree. -/
theorem parsed_filled (tree : root.IsParsed registry config) (below : node.Below root) :
    node.Filled := by
  cases tree with
  | whole parsed => exact (parse_laid parsed).filled root List.mem_cons_self node below
  | @begun text _ _ found listed =>
    rw [unfinished_eq] at found
    split at found
    · cases found
    · obtain rfl := Except.ok.inj found
      obtain ⟨nodes, cut, rfl⟩ := List.mem_map.mp listed
      exact (scriptRun_cuts registry config true _ nodes cut).unfinishedTree.filled node below

end Matching
end SentenceGrammar
