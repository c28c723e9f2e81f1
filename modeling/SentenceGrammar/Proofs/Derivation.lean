import Mathlib.Logic.Relation
import SentenceGrammar.Matching.Script
import SentenceGrammar.Proofs.Numerals

/-!
# Derivations

What it means that a tree is a reading of a pattern, said without any search: its nodes stand for
the items of the pattern one after the other, and each shows the text that lies between its two
places. From the derivations follows which types may have to be read at which places while another
one is being read, and so what left recursion is.
-/
namespace SentenceGrammar

/-- The characters of which a target is a run; numbers and registered types are none. -/
def Target.single? : Target → Option (Char → Bool)
  | .builtin type => type.accepts?
  | .charClass set => some set.contains
  | .named _ => none

/-- Exactly one character of a built-in type is shown as such, any other run as a run. -/
def Placeholder.runKind {ε κ : Type} (slot : Placeholder) : NodeKind ε κ :=
  match slot.target with
  | .builtin type => if slot.quantifier = .one then .builtin type else .run
  | .charClass _ | .named _ => .run

/-- A grammar given by the items of its alternatives. -/
def Registry.ofItems (types : List (String × List (List Item))) (sentences : List (List Item)) :
    Registry Empty Empty where
  types := types.map fun (name, alternatives) =>
    ⟨name, alternatives.map fun items => ⟨some name, ⟨"", items⟩, none, none, false⟩⟩
  sentences := sentences.map fun items => ⟨none, ⟨"", items⟩, none, none, false⟩

theorem Registry.mem_ofItems {types : List (String × List (List Item))}
    {sentences : List (List Item)} {name : String} {chosen : Alternative Empty Empty}
    (member : chosen ∈ (Registry.ofItems types sentences).alternatives name) :
    ∃ entry ∈ types, entry.1 = name ∧ chosen.pattern.items ∈ entry.2 := by
  rw [Registry.alternatives] at member
  split at member
  next entry found =>
    rw [Registry.entry?] at found
    obtain ⟨given, listed, rfl⟩ := List.mem_map.mp (List.mem_of_find?_eq_some found)
    obtain ⟨items, registered, rfl⟩ := List.mem_map.mp member
    exact ⟨given, listed, by simpa using List.find?_some found, registered⟩
  next => cases member

/-- Exactly one occurrence of a registered type. -/
def Item.type (name : String) : Item := .placeholder ⟨name, .named name, .one, ⟨0, 0⟩⟩

namespace Matching

variable {ε κ : Type} (rules : String → List (Alternative ε κ)) (config : Config)

/-- What stands in front of a unit of a repetition after `count` others: a separator, unless it is
the first unit or units are adjacent. -/
inductive Opening : Nat → Cursor → Cursor → List (Node ε κ) → Prop where
  | first (place : Cursor) : Opening 0 place place []
  | adjacent (count : Nat) (place : Cursor) (unseparated : config.repetition.separator? = none) :
      Opening count place place []
  | separated {count : Nat} {text : String} {start stop : Cursor} (further : count ≠ 0)
      (separator : config.repetition.separator? = some text)
      (passes : start.Passes text.toList stop) :
      Opening count start stop [⟨.literal text, none, start.spanTo stop, text, true, []⟩]

mutual

/-- A number, or a registered type read by one of its alternatives. -/
inductive DerivesUnit : Placeholder → Cursor → Cursor → Node ε κ → Prop where
  | number {slot : Placeholder} {type : Builtin} {start stop : Cursor} {word : List Char}
      (target : slot.target = .builtin type) (numeral : word ∈ Numeral.language type)
      (passes : start.Passes word stop) :
      DerivesUnit slot start stop
        ⟨.builtin type, some slot.name, start.spanTo stop, String.ofList word, true, []⟩
  | type {slot : Placeholder} {name : String} {chosen : Alternative ε κ} {start stop : Cursor}
      {word : List Char} {children : List (Node ε κ)}
      (target : slot.target = .named name) (member : chosen ∈ rules name)
      (items : DerivesItems chosen.pattern.items start stop children)
      (passes : start.Passes word stop) :
      DerivesUnit slot start stop
        ⟨.alternative chosen, some slot.name, start.spanTo stop, String.ofList word, true, children⟩

/-- Units in a row that raise their number from a count to a total. Each one ends behind the place
where its repetition began, so a repetition never stands still. -/
inductive DerivesUnits : Placeholder → Nat → Nat → Cursor → Cursor → List (Node ε κ) → Prop where
  | done (slot : Placeholder) (total : Nat) (place : Cursor) :
      DerivesUnits slot total total place place []
  | more {slot : Placeholder} {count total : Nat} {start opened middle stop : Cursor}
      {opening : List (Node ε κ)} {node : Node ε κ} {nodes : List (Node ε κ)}
      (separator : Opening config count start opened opening)
      (unit : DerivesUnit slot opened middle node) (moved : middle.offset ≠ start.offset)
      (rest : DerivesUnits slot (count + 1) total middle stop nodes) :
      DerivesUnits slot count total start stop (opening ++ node :: nodes)

/-- The node of one item of a pattern. -/
inductive DerivesItem : Item → Cursor → Cursor → Node ε κ → Prop where
  | literal {text : String} {span : Span} {start stop : Cursor}
      (passes : start.Passes text.toList stop) :
      DerivesItem (.literal text span) start stop
        ⟨.literal text, none, start.spanTo stop, text, true, []⟩
  | run {slot : Placeholder} {accepts : Char → Bool} {start stop : Cursor} {word : List Char}
      (target : slot.target.single? = some accepts) (accepted : word.all accepts = true)
      (count : slot.quantifier.admits word.length = true) (passes : start.Passes word stop) :
      DerivesItem (.placeholder slot) start stop
        ⟨slot.runKind, some slot.name, start.spanTo stop, String.ofList word, true, []⟩
  | single {slot : Placeholder} {start stop : Cursor} {node : Node ε κ}
      (target : slot.target.single? = none) (one : slot.quantifier = .one)
      (unit : DerivesUnit slot start stop node) :
      DerivesItem (.placeholder slot) start stop node
  | repetition {slot : Placeholder} {total : Nat} {start stop : Cursor} {word : List Char}
      {children : List (Node ε κ)}
      (target : slot.target.single? = none) (several : slot.quantifier ≠ .one)
      (count : slot.quantifier.admits total = true)
      (units : DerivesUnits slot 0 total start stop children) (passes : start.Passes word stop) :
      DerivesItem (.placeholder slot) start stop
        ⟨.repetition slot.quantifier, some slot.name, start.spanTo stop, String.ofList word, true,
          children⟩

/-- One node for each item, each beginning where the one before ends. -/
inductive DerivesItems : List Item → Cursor → Cursor → List (Node ε κ) → Prop where
  | nil (place : Cursor) : DerivesItems [] place place []
  | cons {item : Item} {rest : List Item} {start middle stop : Cursor} {node : Node ε κ}
      {nodes : List (Node ε κ)} (first : DerivesItem item start middle node)
      (others : DerivesItems rest middle stop nodes) :
      DerivesItems (item :: rest) start stop (node :: nodes)

end

/-- A reading by one of several alternatives. -/
def DerivesOneOf (alternatives : List (Alternative ε κ)) (start : Cursor)
    (reading : TypeReading ε κ) : Prop :=
  reading.chosen ∈ alternatives ∧
    DerivesItems rules config reading.chosen.pattern.items start reading.stop reading.children

variable {rules config} {slot : Placeholder} {item : Item} {items : List Item}
  {count total : Nat} {start stop : Cursor} {node : Node ε κ} {nodes : List (Node ε κ)}

theorem Opening.passes (opening : Opening config count start stop nodes) :
    ∃ word, start.Passes word stop := by
  cases opening with
  | first => exact ⟨_, .refl _⟩
  | adjacent => exact ⟨_, .refl _⟩
  | separated _ _ passes => exact ⟨_, passes⟩

theorem DerivesUnit.passes (unit : DerivesUnit rules config slot start stop node) :
    ∃ word, start.Passes word stop := by
  cases unit with
  | number _ _ passes => exact ⟨_, passes⟩
  | type _ _ _ passes => exact ⟨_, passes⟩

theorem DerivesItem.passes (derived : DerivesItem rules config item start stop node) :
    ∃ word, start.Passes word stop := by
  cases derived with
  | literal passes => exact ⟨_, passes⟩
  | run _ _ _ passes => exact ⟨_, passes⟩
  | single _ _ unit => exact unit.passes
  | repetition _ _ _ _ passes => exact ⟨_, passes⟩

theorem DerivesItems.passes : ∀ {items : List Item} {start stop : Cursor} {nodes : List (Node ε κ)},
    DerivesItems rules config items start stop nodes → ∃ word, start.Passes word stop
  | _, _, _, _, .nil _ => ⟨_, .refl _⟩
  | _, _, _, _, .cons first others => by
    obtain ⟨word, passes⟩ := first.passes
    obtain ⟨more, further⟩ := others.passes
    exact ⟨_, passes.trans further⟩

theorem DerivesUnits.passes : ∀ {count total : Nat} {start stop : Cursor} {nodes : List (Node ε κ)},
    DerivesUnits rules config slot count total start stop nodes →
      ∃ word, start.Passes word stop
  | _, _, _, _, _, .done _ _ _ => ⟨_, .refl _⟩
  | _, _, _, _, _, .more separator unit _ rest => by
    obtain ⟨front, opened⟩ := separator.passes
    obtain ⟨word, passes⟩ := unit.passes
    obtain ⟨more, further⟩ := rest.passes
    exact ⟨_, (opened.trans passes).trans further⟩

/-! ### Left recursion -/

variable (rules config)

/-- After `count` units of a repetition up to a place, a further one may have to be read at another
place, at once or after more units. -/
inductive UnitAt (slot : Placeholder) : Nat → Cursor → Cursor → Prop where
  | here {count : Nat} {start place : Cursor} {opening : List (Node ε κ)}
      (more : slot.quantifier.allowsMore count = true)
      (separator : Opening config count start place opening) : UnitAt slot count start place
  | later {count : Nat} {start opened middle place : Cursor} {opening : List (Node ε κ)}
      {node : Node ε κ} (more : slot.quantifier.allowsMore count = true)
      (separator : Opening config count start opened opening)
      (unit : DerivesUnit rules config slot opened middle node)
      (moved : middle.offset ≠ start.offset) (rest : UnitAt slot (count + 1) middle place) :
      UnitAt slot count start place

/-- Reading items from a place on may lead to reading a type at some place. -/
inductive ItemsAsk : List Item → Cursor → String × Cursor → Prop where
  | here {slot : Placeholder} {rest : List Item} {start place : Cursor} {name : String}
      (target : slot.target = .named name)
      (unit : UnitAt rules config slot 0 start place) :
      ItemsAsk (.placeholder slot :: rest) start (name, place)
  | later {item : Item} {rest : List Item} {start middle : Cursor} {node : Node ε κ}
      {pair : String × Cursor} (first : DerivesItem rules config item start middle node)
      (others : ItemsAsk rest middle pair) : ItemsAsk (item :: rest) start pair

/-- Reading a type at a place may lead directly to reading another one, perhaps at a later
place. -/
def Asks (outer inner : String × Cursor) : Prop :=
  ∃ chosen ∈ rules outer.1,
    ItemsAsk rules config chosen.pattern.items outer.2 inner

/-- No type has to be read again at a place of the text where it is already being read. -/
def NoLeftRecursion (text : List Char) : Prop :=
  ∀ pair : String × Cursor, pair.2.In text → ¬Relation.TransGen (Asks rules config) pair pair

/-- A type may have to be read again at a place where it is being read, but no two different types
may both have to be read within each other at one place. -/
def NoMutualLeftRecursion (text : List Char) : Prop :=
  ∀ first second : String × Cursor, first.2.In text →
    Relation.TransGen (Asks rules config) first second →
    Relation.TransGen (Asks rules config) second first → first = second

theorem NoLeftRecursion.noMutual {text : List Char}
    (acyclic : NoLeftRecursion rules config text) :
    NoMutualLeftRecursion rules config text :=
  fun first _ inside there back => absurd (there.trans back) (acyclic first inside)

variable {rules config}

theorem UnitAt.passes {place : Cursor} (asked : UnitAt rules config slot count start place) :
    ∃ word, start.Passes word place := by
  induction asked with
  | here _ separator => exact separator.passes
  | later _ separator unit _ _ ih =>
    obtain ⟨front, opened⟩ := separator.passes
    obtain ⟨word, passes⟩ := unit.passes
    obtain ⟨more, further⟩ := ih
    exact ⟨_, (opened.trans passes).trans further⟩

theorem ItemsAsk.target {pair : String × Cursor}
    (asked : ItemsAsk rules config items start pair) :
    ∃ slot, Item.placeholder slot ∈ items ∧ slot.target = .named pair.1 := by
  induction asked with
  | here target _ => exact ⟨_, List.mem_cons_self, target⟩
  | later _ _ ih =>
    obtain ⟨slot, member, target⟩ := ih
    exact ⟨slot, List.mem_cons_of_mem _ member, target⟩

theorem ItemsAsk.passes {pair : String × Cursor} (asked : ItemsAsk rules config items start pair) :
    ∃ word, start.Passes word pair.2 := by
  induction asked with
  | here _ unit => exact unit.passes
  | later first _ ih =>
    obtain ⟨word, passes⟩ := first.passes
    obtain ⟨more, further⟩ := ih
    exact ⟨_, passes.trans further⟩

end Matching
end SentenceGrammar
