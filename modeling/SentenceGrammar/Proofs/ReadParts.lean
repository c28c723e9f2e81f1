import Mathlib.Data.List.Forall2
import SentenceGrammar.Proofs.Derivation
import SentenceGrammar.Proofs.PlaceholderGrammar
import SentenceGrammar.Proofs.ScriptSoundness
import SentenceGrammar.Proofs.SteadyEvaluation
import SentenceGrammar.Proofs.Variables

/-!
# What is read at the parts of a pattern

The children of a node that was read by a pattern stand for the parts of the pattern in their order.
So the first part with a name says what the name leads to when it is looked up, whatever the types
in between are made of.
-/
namespace SentenceGrammar

variable {ε κ σ ν : Type}

/-- The name of a placeholder; literal text has none. -/
def Part.name? : Part → Option String
  | literal _ => none
  | slot name .. => some name

namespace Matching

variable {rules : String → List (Alternative ε κ)} {config : Config}

variable (rules config) in
/-- The node can be read at the part of a pattern. -/
def Shows (part : Part) (node : Node ε κ) : Prop :=
  ∃ item start stop, Item.part item = part ∧ DerivesItem rules config item start stop node

/-! ### Nodes and what they cover -/

section

variable {start stop : Cursor} {item : Item} {node : Node ε κ} {nodes : List (Node ε κ)}

theorem DerivesItem.passes_covered (derived : DerivesItem rules config item start stop node) :
    start.Passes node.covered.toList stop := by
  cases derived with
  | literal passes => exact passes
  | run _ _ _ passes | repetition _ _ _ _ passes => simpa using passes
  | single _ _ unit =>
    cases unit with
    | number _ _ passes | type _ _ _ passes => simpa using passes

theorem DerivesItems.passes_covered : ∀ {items : List Item} {start stop : Cursor}
    {nodes : List (Node ε κ)}, DerivesItems rules config items start stop nodes →
      start.Passes (nodes.flatMap fun node => node.covered.toList) stop
  | _, _, _, _, .nil place => .refl place
  | _, _, _, _, .cons first others => first.passes_covered.trans others.passes_covered

theorem DerivesItems.shows : ∀ {items : List Item} {start stop : Cursor} {nodes : List (Node ε κ)},
    DerivesItems rules config items start stop nodes →
      List.Forall₂ (Shows rules config) (items.map Item.part) nodes
  | _, _, _, _, .nil _ => .nil
  | _, _, _, _, .cons first others => .cons ⟨_, _, _, rfl, first⟩ others.shows

end

namespace Shows

variable {node : Node ε κ} {part : Part} {name : String}

theorem name_eq (shows : Shows rules config part node) : node.name = part.name? := by
  obtain ⟨item, start, stop, rfl, derived⟩ := shows
  cases derived with
  | literal | run | repetition => rfl
  | single _ _ unit => cases unit <;> rfl

theorem literal {text : List Char} (shows : Shows rules config (.literal text) node) :
    node.covered.toList = text := by
  obtain ⟨item, start, stop, same, derived⟩ := shows
  cases item with
  | placeholder => cases same
  | literal text span =>
    cases same
    cases derived
    rfl

/-- What is read at a placeholder that is filled just once, by a number or a type. -/
theorem single {target : Target} (several : target.single? = none)
    (shows : Shows rules config (.slot name target .one) node) :
    ∃ slot start stop, slot.target = target ∧ DerivesUnit rules config slot start stop node := by
  obtain ⟨item, start, stop, same, derived⟩ := shows
  cases item with
  | literal => cases same
  | placeholder slot =>
    obtain ⟨slotName, slotTarget, quantifier, span⟩ := slot
    cases same
    cases derived with
    | run target => cases several.symm.trans target
    | repetition _ several => cases several rfl
    | single _ _ unit => exact ⟨_, start, stop, rfl, unit⟩

theorem number {builtin : Builtin} (numeric : builtin.accepts? = none)
    (shows : Shows rules config (.slot name (.builtin builtin) .one) node) :
    node.kind = .builtin builtin ∧ node.covered.toList ∈ Numeral.language builtin := by
  obtain ⟨slot, start, stop, same, unit⟩ :=
    shows.single (show (Target.builtin builtin).single? = none from numeric)
  cases unit with
  | number target numeral =>
    cases same.symm.trans target
    simpa using numeral
  | type target => cases same.symm.trans target

theorem type {type : String} (shows : Shows rules config (.slot name (.named type) .one) node) :
    ∃ chosen ∈ rules type, node.kind = .alternative chosen ∧
      List.Forall₂ (Shows rules config) (chosen.pattern.items.map Item.part) node.children ∧
      node.covered.toList = node.children.flatMap fun child => child.covered.toList := by
  obtain ⟨slot, start, stop, same, unit⟩ := shows.single rfl
  cases unit with
  | number target => cases same.symm.trans target
  | type target member items passes =>
    cases same.symm.trans target
    refine ⟨_, member, rfl, items.shows, ?_⟩
    simpa using passes.word_unique items.passes_covered

theorem run {set : CharClass} {quantifier : Quantifier}
    (shows : Shows rules config (.slot name (.charClass set) quantifier) node) :
    node.kind = .run := by
  obtain ⟨item, start, stop, same, derived⟩ := shows
  cases item with
  | literal => cases same
  | placeholder slot =>
    obtain ⟨slotName, target, quantifier, span⟩ := slot
    cases same
    cases derived with
    | run => rfl
    | single target | repetition target => cases target

end Shows

/-- A name leads to the child that was read at the first part with the name. -/
theorem find?_of_shows {node : Node ε κ} {parts : List Part} {part : Part} (name : String)
    (shows : List.Forall₂ (Shows rules config) parts node.children)
    (named : parts.find? (fun part => part.name? = some name) = some part) :
    ∃ index child, node.find? name = some ([index], child) ∧ Shows rules config part child := by
  suffices ∃ front child back, node.children = front ++ child :: back ∧
      (∀ other ∈ front, other.name ≠ some name) ∧ child.name = some name ∧
      Shows rules config part child by
    obtain ⟨front, child, back, children, before, isNamed, shown⟩ := this
    exact ⟨_, child, Node.find?_child children before isNamed, shown⟩
  generalize node.children = children at shows
  induction shows with
  | nil => nomatch named
  | @cons first node parts nodes shown _ ih =>
    rw [List.find?_cons] at named
    split at named
    next isNamed =>
      cases named
      exact ⟨[], node, nodes, rfl, nofun, by simpa [shown.name_eq] using isNamed, shown⟩
    next other =>
      obtain ⟨front, child, back, rfl, before, isNamed, shownThere⟩ := ih named
      refine ⟨node :: front, child, back, rfl, ?_, isNamed, shownThere⟩
      rw [List.forall_mem_cons]
      exact ⟨by simpa [shown.name_eq] using other, before⟩

/-! ### Words that fit -/

variable (rules config) in
/-- Wherever the word stands in a text, it can be read at the part of a pattern. -/
def Fits (part : Part) (word : List Char) : Prop :=
  ∀ item start stop, Item.part item = part → start.Passes word stop →
    ∃ node : Node ε κ, DerivesItem rules config item start stop node

/-- Words that fit the parts of a pattern one after the other are read by the pattern. -/
theorem exists_derivesItems {items : List Item} :
    ∀ {words : List (List Char)} {start stop : Cursor},
      List.Forall₂ (Fits rules config) (items.map Item.part) words →
        start.Passes words.flatten stop →
          ∃ nodes, DerivesItems rules config items start stop nodes := by
  induction items with
  | nil =>
    rintro words start stop ⟨⟩ passes
    rw [passes.eq_of_nil]
    exact ⟨[], .nil start⟩
  | cons item rest ih =>
    rintro words start stop (_ | ⟨fits, others⟩) passes
    obtain ⟨middle, before, behind⟩ := passes.split
    obtain ⟨node, first⟩ := fits item start middle rfl before
    obtain ⟨nodes, derived⟩ := ih others behind
    exact ⟨node :: nodes, .cons first derived⟩

namespace Fits

variable {name : String}

theorem literal (text : List Char) : Fits rules config (.literal text) text := by
  intro item start stop same passes
  cases item with
  | literal text span =>
    cases same
    exact ⟨_, .literal passes⟩
  | placeholder => cases same

theorem number {builtin : Builtin} {word : List Char} (numeric : builtin.accepts? = none)
    (numeral : word ∈ Numeral.language builtin) :
    Fits rules config (.slot name (.builtin builtin) .one) word := by
  intro item start stop same passes
  cases item with
  | literal => cases same
  | placeholder slot =>
    obtain ⟨slotName, target, quantifier, span⟩ := slot
    cases same
    exact ⟨_, .single numeric rfl (.number rfl numeral passes)⟩

theorem type {type : String} {chosen : Alternative ε κ} {words : List (List Char)}
    (member : chosen ∈ rules type)
    (fit : List.Forall₂ (Fits rules config) (chosen.pattern.items.map Item.part) words) :
    Fits rules config (.slot name (.named type) .one) words.flatten := by
  intro item start stop same passes
  cases item with
  | literal => cases same
  | placeholder slot =>
    obtain ⟨slotName, target, quantifier, span⟩ := slot
    cases same
    obtain ⟨nodes, derived⟩ := exists_derivesItems fit passes
    exact ⟨_, .single rfl rfl (.type rfl member derived passes)⟩

end Fits

/-! ### Sentences of scripts -/

/-- The node can be read as a sentence of the registry. -/
def ShowsSentence (registry : Registry ε κ) (config : Config) (node : Node ε κ) : Prop :=
  ∃ chosen ∈ registry.sentences, node.kind = .alternative chosen ∧
    List.Forall₂ (Shows registry.alternatives config) (chosen.pattern.items.map Item.part)
      node.children

theorem DerivesGap.isGap {start stop : Cursor} {nodes : List (Node ε κ)}
    (gap : DerivesGap start stop nodes) : ∀ node ∈ nodes, node.isGap = true := by
  cases gap with
  | none => nofun
  | some => exact List.forall_mem_singleton.mpr rfl

theorem DerivesRow.showsSentence {registry : Registry ε κ} {start stop : Cursor} {count : Nat}
    {separated : Bool} {nodes : List (Node ε κ)}
    (row : DerivesRow registry config start count stop separated nodes) :
    ∀ node ∈ nodes, node.isGap = false → ShowsSentence registry config node := by
  induction row with
  | leading gap =>
    intro node member sentence
    rw [gap.isGap node member] at sentence
    cases sentence
  | sentence _ derived _ gap ih =>
    intro node member sentence
    rcases List.mem_append.mp member with before | member
    · exact ih node before sentence
    · rcases List.mem_cons.mp member with rfl | behind
      · exact ⟨_, derived.1, rfl, derived.2.shows⟩
      · rw [gap.isGap node behind] at sentence
        cases sentence

/-- A text is parsed to a script of sentences. -/
theorem parse_sentences {registry : Registry ε κ} {text : String} {root : Node ε κ}
    (parsed : parse registry config text = .ok root) :
    root.kind = .script ∧ ∀ sentence ∈ root.sentences, ShowsSentence registry config sentence := by
  obtain ⟨whole, count, separated, row, -⟩ := parse_row parsed
  refine ⟨by rw [whole]; rfl, fun sentence member => ?_⟩
  obtain ⟨listed, isSentence⟩ := List.mem_filter.mp member
  exact row.showsSentence sentence listed (by simpa using isSentence)

/-! ### Steady evaluators -/

section

variable {program : ε → Node ε κ → Program σ} {view : σ → ν}

/-- A node is steady if its own evaluator is, and its children are. -/
theorem steady_of_children {node : Node ε κ}
    (given : ∀ evaluator, node.evaluator? = some evaluator →
      (program evaluator node).Steady view)
    (children : ∀ child ∈ node.children, child.Steady view program) :
    node.Steady view program := by
  rintro (_ | ⟨index, path⟩) below found
  · cases found
    exact Node.task_steady given
  · obtain ⟨child, atIndex, found⟩ := Option.bind_eq_some_iff.mp found
    exact children child (List.mem_of_getElem? atIndex) path below found

theorem Opening.steady {count : Nat} {start stop : Cursor} {nodes : List (Node ε κ)}
    (opening : Opening config count start stop nodes) :
    ∀ node ∈ nodes, node.Steady view program := by
  cases opening with
  | first | adjacent => nofun
  | separated => exact List.forall_mem_singleton.mpr (steady_of_children nofun nofun)

theorem evaluator?_runKind {slot : Placeholder} {name : Option String} {span : Span}
    {covered : String} {complete : Bool} : Node.evaluator? (ε := ε) (κ := κ)
      ⟨slot.runKind, name, span, covered, complete, []⟩ = none := by
  unfold Placeholder.runKind
  split
  · split <;> rfl
  · rfl
  · rfl

variable (view program rules) in
/-- The evaluators of all types are steady. -/
def SteadyRules : Prop := ∀ name, ∀ chosen ∈ rules name, ∀ evaluator,
  chosen.evaluator = some evaluator → ∀ node, (program evaluator node).Steady view

mutual

theorem DerivesUnit.steady (steady : SteadyRules rules program view) {slot : Placeholder}
    {start stop : Cursor} {node : Node ε κ} :
    DerivesUnit rules config slot start stop node → node.Steady view program
  | .number _ _ _ => steady_of_children nofun nofun
  | .type _ member items _ =>
    steady_of_children (fun evaluator given => steady _ _ member evaluator given _)
      (items.steady steady)

theorem DerivesUnits.steady (steady : SteadyRules rules program view) {slot : Placeholder}
    {count total : Nat} {start stop : Cursor} {nodes : List (Node ε κ)} :
    DerivesUnits rules config slot count total start stop nodes →
      ∀ node ∈ nodes, node.Steady view program
  | .done _ _ _ => nofun
  | .more separator unit _ rest => List.forall_mem_append.mpr
    ⟨separator.steady, List.forall_mem_cons.mpr ⟨unit.steady steady, rest.steady steady⟩⟩

theorem DerivesItem.steady (steady : SteadyRules rules program view) {item : Item}
    {start stop : Cursor} {node : Node ε κ} :
    DerivesItem rules config item start stop node → node.Steady view program
  | .literal _ => steady_of_children nofun nofun
  | .run _ _ _ _ => steady_of_children (by simp [evaluator?_runKind]) nofun
  | .single _ _ unit => unit.steady steady
  | .repetition _ _ _ units _ => steady_of_children nofun (units.steady steady)

theorem DerivesItems.steady (steady : SteadyRules rules program view) {items : List Item}
    {start stop : Cursor} {nodes : List (Node ε κ)} :
    DerivesItems rules config items start stop nodes → ∀ node ∈ nodes, node.Steady view program
  | .nil _ => nofun
  | .cons first others => List.forall_mem_cons.mpr ⟨first.steady steady, others.steady steady⟩

end

theorem Shows.steady (steady : SteadyRules rules program view) {part : Part} {node : Node ε κ}
    (shows : Shows rules config part node) : node.Steady view program := by
  obtain ⟨item, start, stop, -, derived⟩ := shows
  exact derived.steady steady

end

end Matching
end SentenceGrammar
