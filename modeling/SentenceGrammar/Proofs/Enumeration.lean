import Mathlib.Data.List.Basic
import SentenceGrammar.Proofs.Derivation

/-!
# Enumerating derivations

Plain backtracking: every derivation at a place, in the order of preference, with nothing
remembered and nothing dropped. Earlier alternatives go before later ones, longer words of a
terminal before shorter ones, and one more unit of a repetition before stopping. How a type is read
is left to the parameter `ask`.
-/
namespace SentenceGrammar.Matching

variable {ε κ : Type}

namespace Enumerate

variable (config : Config) (ask : String → Cursor → List (TypeReading ε κ))

/-- The words of a terminal, the longest one first. -/
def words (language : List Char → Bool) (name : Option String) (kind : NodeKind ε κ)
    (start : Cursor) : List (Reading ε κ) :=
  (start.behind language).map fun stop => ⟨stop, .covering start stop name kind []⟩

def unit (slot : Placeholder) (start : Cursor) : List (Reading ε κ) :=
  match slot.target with
  | .builtin type => words (Numeral.accepts type) (some slot.name) (.builtin type) start
  | .named type => (ask type start).map fun found =>
      ⟨found.stop,
        .covering start found.stop (some slot.name) (.alternative found.chosen) found.children⟩
  | .charClass _ => []

/-- What may stand in front of a unit after `count` others. -/
def openings (count : Nat) (start : Cursor) : List (Chain ε κ) :=
  match config.repetition.separator? with
  | some separator =>
    if count = 0 then [⟨start, []⟩]
    else (words (· == separator.toList) none (.literal separator) start).map fun found =>
      ⟨found.stop, [found.node]⟩
  | none => [⟨start, []⟩]

/-- Further units after `count` of them, as long as the quantifier allows. A unit that leaves as
much of the text as there was before its separator is skipped. -/
def units (slot : Placeholder) (count : Nat) (start : Cursor) : List (Chain ε κ) :=
  (if slot.quantifier.allowsMore count then
    (openings config count start).flatMap fun opening =>
      (unit ask slot opening.stop).flatMap fun found =>
        if found.stop.rest.length < start.rest.length then
          (units slot (count + 1) found.stop).map fun tail =>
            ⟨tail.stop, opening.nodes ++ found.node :: tail.nodes⟩
        else []
  else []) ++
    if slot.quantifier.admits count then [⟨start, []⟩] else []
termination_by start.rest.length

def item : Item → Cursor → List (Reading ε κ)
  | .literal text _, start => words (· == text.toList) none (.literal text) start
  | .placeholder slot, start =>
    match slot.target.single? with
    | some accepts =>
      words (fun word => word.all accepts && slot.quantifier.admits word.length) (some slot.name)
        slot.runKind start
    | none =>
      if slot.quantifier = .one then unit ask slot start
      else (units config ask slot 0 start).map fun found =>
        ⟨found.stop,
          .covering start found.stop (some slot.name) (.repetition slot.quantifier) found.nodes⟩

def items : List Item → Cursor → List (Chain ε κ)
  | [], start => [⟨start, []⟩]
  | first :: rest, start =>
    (item config ask first start).flatMap fun found =>
      (items rest found.stop).map fun tail => ⟨tail.stop, found.node :: tail.nodes⟩

def oneOf (alternatives : List (Alternative ε κ)) (start : Cursor) : List (TypeReading ε κ) :=
  alternatives.flatMap fun alternative =>
    (items config ask alternative.pattern.items start).map fun chain =>
      ⟨chain.stop, alternative, chain.nodes⟩

end Enumerate

open Enumerate

variable {rules : String → List (Alternative ε κ)} {config : Config}
  {ask ask' : String → Cursor → List (TypeReading ε κ)}

/-! ### Whatever is enumerated derives -/

/-- Only derivations are given for a type. -/
def Sound (rules : String → List (Alternative ε κ)) (config : Config)
    (ask : String → Cursor → List (TypeReading ε κ)) : Prop :=
  ∀ name place, ∀ reading ∈ ask name place, DerivesOneOf rules config (rules name) place reading

theorem mem_words {language : List Char → Bool} {name : Option String} {kind : NodeKind ε κ}
    {start : Cursor} {reading : Reading ε κ} :
    reading ∈ words language name kind start ↔
      ∃ word, start.Passes word reading.stop ∧ language word = true ∧
        reading.node =
          ⟨kind, name, start.spanTo reading.stop, String.ofList word, true, []⟩ := by
  obtain ⟨stop, node⟩ := reading
  simp only [words, List.mem_map, Cursor.mem_behind, Reading.mk.injEq]
  constructor
  · rintro ⟨_, ⟨word, passes, accepted⟩, rfl, rfl⟩
    exact ⟨word, passes, accepted, Node.covering_eq passes _ _ _⟩
  · rintro ⟨word, passes, accepted, rfl⟩
    exact ⟨stop, ⟨word, passes, accepted⟩, rfl, Node.covering_eq passes _ _ _⟩

theorem mem_literal {text : String} {start : Cursor} {reading : Reading ε κ} :
    reading ∈ words (· == text.toList) none (.literal text) start ↔
      start.Passes text.toList reading.stop ∧
        reading.node = ⟨.literal text, none, start.spanTo reading.stop, text, true, []⟩ := by
  rw [mem_words]
  constructor
  · rintro ⟨word, passes, accepted, node⟩
    obtain rfl := beq_iff_eq.mp accepted
    exact ⟨passes, by rw [node, String.ofList_toList]⟩
  · rintro ⟨passes, node⟩
    exact ⟨text.toList, passes, beq_self_eq_true _, by rw [node, String.ofList_toList]⟩

theorem mem_openings {count : Nat} {start : Cursor} {opening : Chain ε κ} :
    opening ∈ openings config count start ↔
      Opening config count start opening.stop opening.nodes := by
  obtain ⟨stop, nodes⟩ := opening
  cases separator : config.repetition.separator? with
  | none =>
    simp only [openings, separator, List.mem_singleton, Chain.mk.injEq]
    constructor
    · rintro ⟨rfl, rfl⟩
      exact .adjacent _ _ separator
    · intro opening
      cases opening with
      | first => exact ⟨rfl, rfl⟩
      | adjacent => exact ⟨rfl, rfl⟩
      | separated _ some _ => simp [separator] at some
  | some text =>
    by_cases first : count = 0
    · subst first
      simp only [openings, separator, if_pos, List.mem_singleton, Chain.mk.injEq]
      constructor
      · rintro ⟨rfl, rfl⟩
        exact .first _
      · intro opening
        cases opening with
        | first => exact ⟨rfl, rfl⟩
        | adjacent => exact ⟨rfl, rfl⟩
        | separated further _ _ => exact absurd rfl further
    · simp only [openings, separator, if_neg first, List.mem_map, mem_literal, Chain.mk.injEq]
      constructor
      · rintro ⟨found, ⟨passes, node⟩, rfl, rfl⟩
        rw [node]
        exact .separated first separator passes
      · intro opening
        cases opening with
        | first => exact absurd rfl first
        | adjacent _ _ unseparated => simp [separator] at unseparated
        | separated _ some passes =>
          obtain rfl := Option.some.inj (separator.symm.trans some)
          exact ⟨⟨_, _⟩, ⟨passes, rfl⟩, rfl, rfl⟩

theorem derives_of_mem_unit (sound : Sound rules config ask) {slot : Placeholder} {start : Cursor}
    {reading : Reading ε κ} (member : reading ∈ unit ask slot start) :
    DerivesUnit rules config slot start reading.stop reading.node := by
  obtain ⟨stop, node⟩ := reading
  cases target : slot.target with
  | builtin type =>
    simp only [unit, target, mem_words] at member
    obtain ⟨word, passes, accepted, rfl⟩ := member
    exact .number target (Numeral.accepts_iff.mp accepted) passes
  | charClass set => simp [unit, target] at member
  | named type =>
    simp only [unit, target, List.mem_map, Reading.mk.injEq] at member
    obtain ⟨found, asked, rfl, rfl⟩ := member
    obtain ⟨chosen, derived⟩ := sound _ _ _ asked
    obtain ⟨word, passes⟩ := derived.passes
    rw [Node.covering_eq passes]
    exact .type target chosen derived passes

theorem mem_units {slot : Placeholder} {count : Nat} {start : Cursor} {chain : Chain ε κ} :
    chain ∈ units config ask slot count start ↔
      (slot.quantifier.allowsMore count = true ∧
        ∃ opening ∈ openings config count start, ∃ found ∈ unit ask slot opening.stop,
          found.stop.rest.length < start.rest.length ∧
            ∃ tail ∈ units config ask slot (count + 1) found.stop,
              chain = ⟨tail.stop, opening.nodes ++ found.node :: tail.nodes⟩) ∨
      (slot.quantifier.admits count = true ∧ chain = ⟨start, []⟩) := by
  rw [units, List.mem_append]
  apply or_congr
  · split
    next more =>
      simp only [more, true_and, List.mem_flatMap, List.mem_ite_nil_right, List.mem_map, eq_comm]
    next full => simp [full]
  · rw [List.mem_ite_nil_right, List.mem_singleton]

/-- An opening with a unit behind it moves on if less of the text is left. -/
theorem moved_iff {count : Nat} {start opened stop : Cursor} {slot : Placeholder}
    {nodes : List (Node ε κ)} {node : Node ε κ}
    (opening : Opening config count start opened nodes)
    (unit : DerivesUnit rules config slot opened stop node) :
    stop.rest.length < start.rest.length ↔ stop.offset ≠ start.offset := by
  obtain ⟨front, before⟩ := opening.passes
  obtain ⟨word, behind⟩ := unit.passes
  exact (before.trans behind).rest_lt_iff

theorem derives_of_mem_units (sound : Sound rules config ask) {slot : Placeholder} {count : Nat}
    {start : Cursor} {chain : Chain ε κ} (member : chain ∈ units config ask slot count start) :
    ∃ total, slot.quantifier.admits total = true ∧
      DerivesUnits rules config slot count total start chain.stop chain.nodes := by
  rcases mem_units.mp member with ⟨-, opening, opened, found, read, shorter, tail, later, rfl⟩ | last
  · obtain ⟨total, admitted, rest⟩ := derives_of_mem_units sound later
    have separator := mem_openings.mp opened
    have derived := derives_of_mem_unit sound read
    exact ⟨total, admitted, .more separator derived ((moved_iff separator derived).mp shorter) rest⟩
  · obtain ⟨admitted, rfl⟩ := last
    exact ⟨count, admitted, .done _ _ _⟩
termination_by start.rest.length

theorem derives_of_mem_item (sound : Sound rules config ask) {item : Item} {start : Cursor}
    {reading : Reading ε κ} (member : reading ∈ Enumerate.item config ask item start) :
    DerivesItem rules config item start reading.stop reading.node := by
  obtain ⟨stop, node⟩ := reading
  cases item with
  | literal text span =>
    simp only [Enumerate.item, mem_literal] at member
    obtain ⟨passes, rfl⟩ := member
    exact .literal passes
  | placeholder slot =>
    cases target : slot.target.single? with
    | some accepts =>
      simp only [Enumerate.item, target, mem_words, Bool.and_eq_true] at member
      obtain ⟨word, passes, ⟨accepted, count⟩, rfl⟩ := member
      exact .run target accepted count passes
    | none =>
      by_cases one : slot.quantifier = .one
      · simp only [Enumerate.item, target, if_pos one] at member
        exact .single target one (derives_of_mem_unit sound member)
      · simp only [Enumerate.item, target, if_neg one, List.mem_map, Reading.mk.injEq] at member
        obtain ⟨found, repeated, rfl, rfl⟩ := member
        obtain ⟨total, admitted, derived⟩ := derives_of_mem_units sound repeated
        obtain ⟨word, passes⟩ := derived.passes
        rw [Node.covering_eq passes]
        exact .repetition target one admitted derived passes

theorem derives_of_mem_items (sound : Sound rules config ask) {list : List Item} {start : Cursor}
    {chain : Chain ε κ} (member : chain ∈ items config ask list start) :
    DerivesItems rules config list start chain.stop chain.nodes := by
  induction list generalizing start chain with
  | nil =>
    obtain rfl := List.mem_singleton.mp member
    exact .nil _
  | cons first rest ih =>
    simp only [items, List.mem_flatMap, List.mem_map] at member
    obtain ⟨found, read, tail, later, rfl⟩ := member
    exact .cons (derives_of_mem_item sound read) (ih later)

theorem derives_of_mem_oneOf (sound : Sound rules config ask)
    {alternatives : List (Alternative ε κ)} {start : Cursor} {reading : TypeReading ε κ}
    (member : reading ∈ oneOf config ask alternatives start) :
    DerivesOneOf rules config alternatives start reading := by
  simp only [oneOf, List.mem_flatMap, List.mem_map] at member
  obtain ⟨chosen, registered, chain, read, rfl⟩ := member
  exact ⟨registered, derives_of_mem_items sound read⟩

/-! ### Only the types asked for matter -/

theorem unit_congr {slot : Placeholder} {start : Cursor}
    (same : ∀ name, slot.target = .named name → ask name start = ask' name start) :
    unit ask slot start = unit ask' slot start := by
  cases target : slot.target with
  | builtin type => simp only [unit, target]
  | charClass set => simp only [unit, target]
  | named type => simp only [unit, target, same type target]

theorem units_congr (sound : Sound rules config ask) {slot : Placeholder} {count : Nat}
    {start : Cursor}
    (same : ∀ name place, slot.target = .named name → UnitAt rules config slot count start place →
      ask name place = ask' name place) :
    units config ask slot count start = units config ask' slot count start := by
  rw [units, units.eq_def config ask']
  congr 1
  split
  next more =>
    apply List.flatMap_congr
    intro opening opened
    have separator := mem_openings.mp opened
    have first : unit ask slot opening.stop = unit ask' slot opening.stop :=
      unit_congr fun name target => same name _ target (.here more separator)
    rw [← first]
    -- Types are only asked for where the units read so far may lead.
    apply List.flatMap_congr
    intro found read
    split
    next shorter =>
      have derived := derives_of_mem_unit sound read
      have moved := (moved_iff separator derived).mp shorter
      rw [units_congr sound fun name place target later =>
        same name place target (.later more separator derived moved later)]
    next => rfl
  next => rfl
termination_by start.rest.length

theorem item_congr (sound : Sound rules config ask) {first : Item} {rest : List Item}
    {start : Cursor}
    (same : ∀ pair, ItemsAsk rules config (first :: rest) start pair →
      ask pair.1 pair.2 = ask' pair.1 pair.2) :
    item config ask first start = item config ask' first start := by
  cases first with
  | literal text span => rfl
  | placeholder slot =>
    have repeated : ∀ name place, slot.target = .named name →
        UnitAt rules config slot 0 start place → ask name place = ask' name place :=
      fun name place target unit => same (name, place) (.here target unit)
    cases single : slot.target.single? with
    | some accepts => simp only [item, single]
    | none =>
      by_cases one : slot.quantifier = .one
      · have more : slot.quantifier.allowsMore 0 = true := by simp [one, Quantifier.one,
          Quantifier.allowsMore]
        simp only [item, single, if_pos one]
        exact unit_congr fun name target => repeated name start target (.here more (.first _))
      · simp only [item, single, if_neg one, units_congr sound repeated]

theorem items_congr (sound : Sound rules config ask) {list : List Item} {start : Cursor}
    (same : ∀ pair, ItemsAsk rules config list start pair →
      ask pair.1 pair.2 = ask' pair.1 pair.2) :
    items config ask list start = items config ask' list start := by
  induction list generalizing start with
  | nil => rfl
  | cons first rest ih =>
    rw [items, items, ← item_congr sound same]
    apply List.flatMap_congr
    intro found read
    rw [ih fun pair later => same pair (.later (derives_of_mem_item sound read) later)]

theorem oneOf_congr (sound : Sound rules config ask) {alternatives : List (Alternative ε κ)}
    {start : Cursor}
    (same : ∀ chosen ∈ alternatives, ∀ pair,
      ItemsAsk rules config chosen.pattern.items start pair →
        ask pair.1 pair.2 = ask' pair.1 pair.2) :
    oneOf config ask alternatives start = oneOf config ask' alternatives start := by
  apply List.flatMap_congr
  intro chosen registered
  rw [items_congr sound (same chosen registered)]

/-! ### Whatever derives is enumerated -/

/-- The readings of a type are those by its alternatives, at all places of the text. -/
def Unfolds (rules : String → List (Alternative ε κ)) (config : Config) (text : List Char)
    (ask : String → Cursor → List (TypeReading ε κ)) : Prop :=
  ∀ name (place : Cursor), place.In text → ask name place = oneOf config ask (rules name) place

theorem DerivesUnits.count_le {slot : Placeholder} : ∀ {count total : Nat} {start stop : Cursor}
    {nodes : List (Node ε κ)}, DerivesUnits rules config slot count total start stop nodes →
      count ≤ total
  | _, _, _, _, _, .done _ _ _ => Nat.le_refl _
  | _, _, _, _, _, .more _ _ _ rest => Nat.le_of_succ_le rest.count_le

private theorem allowsMore_of_admits {quantifier : Quantifier} {count total : Nat}
    (admitted : quantifier.admits total = true) (less : count < total) :
    quantifier.allowsMore count = true := by
  cases known : quantifier.most with
  | none => simp [Quantifier.allowsMore, known]
  | some most =>
    simp only [Quantifier.admits, known, Option.all_some, Bool.and_eq_true,
      decide_eq_true_eq] at admitted
    simp only [Quantifier.allowsMore, known, decide_eq_true_eq]
    omega

mutual

theorem mem_unit_of_derives {text : List Char} (unfolds : Unfolds rules config text ask)
    {slot : Placeholder} {start stop : Cursor} {node : Node ε κ} (inside : start.In text) :
    DerivesUnit rules config slot start stop node → ⟨stop, node⟩ ∈ unit ask slot start
  | .number target numeral passes => by
    simp only [unit, target, mem_words]
    exact ⟨_, passes, Numeral.accepts_iff.mpr numeral, rfl⟩
  | @DerivesUnit.type _ _ _ _ _ name chosen _ _ _ children target member derived passes => by
    have read := mem_items_of_derives unfolds inside derived
    have asked : ⟨stop, chosen, children⟩ ∈ ask name start := by
      rw [unfolds _ _ inside]
      exact List.mem_flatMap.mpr ⟨chosen, member, List.mem_map.mpr ⟨_, read, rfl⟩⟩
    simp only [unit, target, ← Node.covering_eq passes]
    exact List.mem_map.mpr ⟨_, asked, rfl⟩

theorem mem_units_of_derives {text : List Char} (unfolds : Unfolds rules config text ask)
    {slot : Placeholder} {count total : Nat} {start stop : Cursor} {nodes : List (Node ε κ)}
    (inside : start.In text) (admitted : slot.quantifier.admits total = true) :
    DerivesUnits rules config slot count total start stop nodes →
      ⟨stop, nodes⟩ ∈ units config ask slot count start
  | .done _ _ _ => mem_units.mpr (.inr ⟨admitted, rfl⟩)
  | .more separator derived moved rest => by
    obtain ⟨_, before⟩ := separator.passes
    obtain ⟨_, behind⟩ := derived.passes
    have opened := inside.passes before
    have read := mem_unit_of_derives unfolds opened derived
    have later := mem_units_of_derives unfolds (opened.passes behind) admitted rest
    have more := allowsMore_of_admits admitted rest.count_le
    exact mem_units.mpr (.inl ⟨more, ⟨_, _⟩, mem_openings.mpr separator, ⟨_, _⟩, read,
      (moved_iff separator derived).mpr moved, ⟨_, _⟩, later, rfl⟩)

theorem mem_item_of_derives {text : List Char} (unfolds : Unfolds rules config text ask)
    {item : Item} {start stop : Cursor} {node : Node ε κ} (inside : start.In text) :
    DerivesItem rules config item start stop node →
      ⟨stop, node⟩ ∈ Enumerate.item config ask item start
  | .literal passes => mem_literal.mpr ⟨passes, rfl⟩
  | .run target accepted count passes => by
    simp only [Enumerate.item, target, mem_words, Bool.and_eq_true]
    exact ⟨_, passes, ⟨accepted, count⟩, rfl⟩
  | .single target one derived => by
    simp only [Enumerate.item, target, if_pos one]
    exact mem_unit_of_derives unfolds inside derived
  | .repetition target several count derived passes => by
    have repeated := mem_units_of_derives unfolds inside count derived
    simp only [Enumerate.item, target, if_neg several, ← Node.covering_eq passes]
    exact List.mem_map.mpr ⟨_, repeated, rfl⟩

theorem mem_items_of_derives {text : List Char} (unfolds : Unfolds rules config text ask)
    {list : List Item} {start stop : Cursor} {nodes : List (Node ε κ)} (inside : start.In text) :
    DerivesItems rules config list start stop nodes → ⟨stop, nodes⟩ ∈ items config ask list start
  | .nil _ => List.mem_singleton.mpr rfl
  | .cons first others => by
    obtain ⟨_, passes⟩ := first.passes
    have read := mem_item_of_derives unfolds inside first
    have later := mem_items_of_derives unfolds (inside.passes passes) others
    exact List.mem_flatMap.mpr ⟨_, read, List.mem_map.mpr ⟨_, later, rfl⟩⟩

end

/-- An enumeration that is sound and unfolds lists exactly the derivations. -/
theorem mem_iff_derives {text : List Char} (sound : Sound rules config ask)
    (unfolds : Unfolds rules config text ask) {alternatives : List (Alternative ε κ)}
    {start : Cursor} (inside : start.In text) {reading : TypeReading ε κ} :
    reading ∈ oneOf config ask alternatives start ↔
      DerivesOneOf rules config alternatives start reading := by
  constructor
  · exact derives_of_mem_oneOf sound
  · rintro ⟨registered, derived⟩
    have read := mem_items_of_derives unfolds inside derived
    exact List.mem_flatMap.mpr ⟨_, registered, List.mem_map.mpr ⟨_, read, rfl⟩⟩

end SentenceGrammar.Matching
