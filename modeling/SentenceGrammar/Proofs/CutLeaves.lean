import SentenceGrammar.Proofs.Attempts
import SentenceGrammar.Proofs.Fronts
import SentenceGrammar.Proofs.ScriptSoundness

/-!
# Leaves at the end of a beginning

A reading of a text that goes on behind the end of a beginning has a leaf there, or a leaf begins
there. The beginning cuts this leaf off: in the beginning alone, there is an attempt at the same
terminal at the same place, and the end of the beginning ends it.
-/
namespace SentenceGrammar

variable {ε κ : Type}

namespace Node

/-- Whether the node reads the text itself: a literal, a number or characters. -/
def isTerminal (node : Node ε κ) : Bool :=
  match node.kind with
  | .literal _ | .builtin _ | .run => true
  | _ => false

/-- The character behind an offset belongs to the node. -/
def Covers (node : Node ε κ) (offset : Nat) : Prop :=
  node.span.start ≤ offset ∧ offset < node.span.stop

/-- The nodes are of one kind, have the same name, and begin at the same place. -/
structure BeginsLike (node other : Node ε κ) : Prop where
  kind : node.kind = other.kind
  name : node.name = other.name
  start : node.span.start = other.span.start

theorem size_eq (node : Node ε κ) : node.size = 1 + sizeAll node.children := by
  cases node
  rw [size]

theorem sizeAll_append (front back : List (Node ε κ)) :
    sizeAll (front ++ back) = sizeAll front + sizeAll back := by
  induction front with
  | nil => simp [sizeAll]
  | cons node rest ih => rw [List.cons_append, sizeAll, sizeAll, ih, Nat.add_assoc]

end Node

namespace Matching

variable {rules : String → List (Alternative ε κ)} {config : Config} {start middle stop : Cursor}
  {node : Node ε κ} {nodes others : List (Node ε κ)}

/-! ### Where nodes are -/

/-- The nodes and all below them are between two places. -/
def Between (start stop : Cursor) (nodes : List (Node ε κ)) : Prop :=
  ∀ root ∈ nodes, ∀ node : Node ε κ, node.Below root →
    (start.spanTo stop).start ≤ node.span.start ∧ node.span.stop ≤ (start.spanTo stop).stop

namespace Between

theorem nil (start stop : Cursor) : Between (ε := ε) (κ := κ) start stop [] := by
  simp [Between]

theorem append (first : Between start middle nodes) (second : Between middle stop others)
    (before : start.offset ≤ middle.offset) (behind : middle.offset ≤ stop.offset) :
    Between start stop (nodes ++ others) := by
  intro root member node below
  simp only [Cursor.spanTo, Span.ofOffsets, List.mem_append, Between] at *
  rcases member with member | member
  · have bounds := first root member node below
    omega
  · have bounds := second root member node below
    omega

/-- A node between two places around others. -/
theorem around (inner : Between start stop nodes) {kind : NodeKind ε κ} {name : Option String}
    {text : String} {complete : Bool} :
    Between start stop [⟨kind, name, start.spanTo stop, text, complete, nodes⟩] := by
  intro root member node below
  obtain rfl := List.mem_singleton.mp member
  rcases Node.below_iff.mp below with rfl | ⟨child, listed, further⟩
  · exact ⟨Nat.le_refl _, Nat.le_refl _⟩
  · exact inner child listed node further

theorem leaf {kind : NodeKind ε κ} {name : Option String} {text : String} {complete : Bool} :
    Between start stop [⟨kind, name, start.spanTo stop, text, complete, []⟩] :=
  (Between.nil start stop).around

end Between

theorem layout_between : Layout (Between (ε := ε) (κ := κ)) where
  nil place := .nil place place
  append before behind first second := first.append second before.offset_le behind.offset_le
  leaf _ _ _ := .leaf
  parent _ _ _ inner := inner.around

/-! ### Attempts that the end of a beginning cuts off -/

/-- For every leaf around an offset, there is an attempt that begins like it and was cut off. -/
def Foreseen (offset : Nat) (tries : Attempt ε κ → Prop) (nodes : List (Node ε κ)) : Prop :=
  ∀ root ∈ nodes, ∀ leaf : Node ε κ, leaf.Below root → leaf.isTerminal = true → leaf.Covers offset →
    ∃ attempt, tries attempt ∧ attempt.ended = true ∧ attempt.leaf.BeginsLike leaf

namespace Foreseen

variable {offset : Nat} {tries tries' : Attempt ε κ → Prop}

theorem mono (foreseen : Foreseen offset tries nodes)
    (more : ∀ attempt, tries attempt → tries' attempt) : Foreseen offset tries' nodes := by
  intro root member leaf below terminal covers
  obtain ⟨attempt, tried, ended⟩ := foreseen root member leaf below terminal covers
  exact ⟨attempt, more attempt tried, ended⟩

theorem append (first : Foreseen offset tries nodes) (second : Foreseen offset tries others) :
    Foreseen offset tries (nodes ++ others) := fun root member =>
  (List.mem_append.mp member).elim (first root) (second root)

theorem cons (first : Foreseen offset tries [node]) (rest : Foreseen offset tries nodes) :
    Foreseen offset tries (node :: nodes) := first.append rest

/-- A node that is no terminal has just the leaves of its children. -/
theorem around (inner : Foreseen offset tries node.children) (other : node.isTerminal = false) :
    Foreseen offset tries [node] := by
  intro root member leaf below terminal covers
  obtain rfl := List.mem_singleton.mp member
  rcases Node.below_iff.mp below with rfl | ⟨child, listed, further⟩
  · rw [other] at terminal
    cases terminal
  · exact inner child listed leaf further terminal covers

theorem leaf {kind : NodeKind ε κ} {name : Option String} {attempt : Attempt ε κ}
    (tried : tries attempt)
    (begins : attempt.kind = kind ∧ attempt.name = name ∧ attempt.start.offset = start.offset)
    (ended : offset < stop.offset → attempt.ended = true) :
    Foreseen offset tries [.covering start stop name kind []] := by
  intro root member leaf below _ covers
  obtain rfl := List.mem_singleton.mp member
  rcases Node.below_iff.mp below with rfl | ⟨child, listed, -⟩
  · have bound := covers.2
    simp only [Node.covering, Cursor.spanTo, Span.ofOffsets] at bound
    refine ⟨attempt, tried, ended (by omega), begins.1, begins.2.1, ?_⟩
    simp [Attempt.leaf, Node.cutOff, Node.covering, Cursor.spanTo, Span.ofOffsets, begins.2.2]
  · cases listed

/-- Nothing that begins behind an offset is around it. -/
theorem of_behind (between : Between start stop nodes) (behind : offset < start.offset) :
    Foreseen offset tries nodes := by
  intro root member leaf below _ covers
  have bounds := between root member leaf below
  simp only [Node.Covers, Cursor.spanTo, Span.ofOffsets] at bounds covers
  omega

end Foreseen

/-! ### Terminals -/

variable {front more : List Char} {tries : Attempt ε κ → Prop}

-- A scan that is the same in the whole text gets no further than the beginning.
private theorem not_beyond {language : List Char → Bool} (inside : start.In front)
    (member : stop ∈ (start.behind language).map (Cursor.continued more)) :
    ¬Text.byteSize front < stop.offset := by
  obtain ⟨earlier, listed, rfl⟩ := List.mem_map.mp member
  obtain ⟨_, passes, -⟩ := Cursor.mem_behind.mp listed
  exact Nat.not_lt.mpr (inside.passes passes).offset_le

theorem literal_ended (inside : start.In front) {text : String}
    (member : stop ∈ (start.continued more).behind (· == text.toList))
    (beyond : Text.byteSize front < stop.offset) :
    (literalAttempt (ε := ε) (κ := κ) text start).ended = true := by
  have stops := scanLiteral_stops text.toList start
  rw [← scanLiteral_stops, scanLiteral_continued] at member
  rw [literalAttempt]
  cases scanned : scanLiteral text.toList start with
  | ended missing => rfl
  | whole place =>
    rw [scanned] at member stops
    have same : stop ∈ (start.behind (· == text.toList)).map (Cursor.continued more) :=
      stops ▸ member
    exact absurd beyond (not_beyond inside same)
  | differs place missing =>
    rw [scanned] at member
    cases member

theorem run_ended (inside : start.In front) {slot : Placeholder} {accepts : Char → Bool}
    (member : stop ∈ (start.continued more).behind fun word =>
      word.all accepts && slot.quantifier.admits word.length)
    (beyond : Text.byteSize front < stop.offset) :
    (runAttempt (ε := ε) (κ := κ) slot accepts start).ended = true := by
  have stops := scanRun_stops slot.quantifier accepts start
  rw [← scanRun_stops] at member
  rw [runAttempt]
  cases scanned : scanRun slot.quantifier accepts [] 0 start.offset start.rest with
  | mk scan extendable =>
    rw [scanned] at stops
    dsimp only
    by_contra stopped
    have longer : scanRun slot.quantifier accepts [] 0 (start.continued more).offset
        (start.continued more).rest = (scan.continued more, extendable) :=
      scanRun_continued scanned fun further atEnd => stopped (by simp [further, atEnd])
    rw [longer] at member
    have same : stop ∈ (start.behind fun word =>
        word.all accepts && slot.quantifier.admits word.length).map (Cursor.continued more) :=
      stops ▸ member
    exact not_beyond inside same beyond

theorem number_ended (inside : start.In front) {slot : Placeholder} {type : Builtin}
    (numeric : type.accepts? = none)
    (member : stop ∈ (start.continued more).behind (Numeral.accepts type))
    (beyond : Text.byteSize front < stop.offset) :
    (numberAttempt (ε := ε) (κ := κ) slot type start).ended = true := by
  rw [← scanNumber_stops numeric] at member
  rw [numberAttempt]
  dsimp only
  by_contra stopped
  have longer : scanNumber (type = .float) (start.continued more) =
      (scanNumber (type = .float) start).continued more :=
    scanNumber_continued fun atEnd => stopped (by simp [atEnd])
  have same : stop ∈ (start.behind (Numeral.accepts type)).map (Cursor.continued more) := by
    rw [← scanNumber_stops numeric]
    rw [longer] at member
    exact member
  exact not_beyond inside same beyond

theorem foreseen_word {language : List Char → Bool} {name : Option String} {kind : NodeKind ε κ}
    {found : Reading ε κ} (member : found ∈ Enumerate.words language name kind (start.continued more))
    {attempt : Attempt ε κ} (tried : tries attempt)
    (begins : attempt.kind = kind ∧ attempt.name = name ∧ attempt.start = start)
    (ended : ∀ stop ∈ (start.continued more).behind language, Text.byteSize front < stop.offset →
      attempt.ended = true) : Foreseen (Text.byteSize front) tries [found.node] := by
  obtain ⟨stop, listed, rfl⟩ := List.mem_map.mp member
  exact .leaf tried ⟨begins.1, begins.2.1, by rw [begins.2.2]; rfl⟩ (ended stop listed)

theorem literalAttempt_begins (text : String) (start : Cursor) :
    (literalAttempt (ε := ε) (κ := κ) text start).kind = .literal text ∧
      (literalAttempt (ε := ε) (κ := κ) text start).name = none ∧
        (literalAttempt (ε := ε) (κ := κ) text start).start = start :=
  ⟨literalAttempt_kind text start, congrArg _ (literalAttempt_slot text start),
    literalAttempt_start text start⟩

/-! ### Items -/

/-- The same type at the same place of a longer text. -/
def Context.continued (more : List Char) (context : Context) : Context :=
  context.map fun (name, place) => (name, place.continued more)

section

open Enumerate

variable {long short : String → Cursor → List (TypeReading ε κ)} {context : Context} {bound : Nat}

theorem Fronts.within (fronts : Fronts rules config front more long short) (context : Context) :
    Fronts rules config front more (within (context.continued more) long) (within context short) := by
  cases context with
  | none => exact fronts
  | some pair => exact fronts.avoiding pair.1 pair.2

variable (fronts : Fronts rules config front more long short)
  (types : ∀ name (place : Cursor), place.In front →
    ∀ reading ∈ long name (place.continued more), Node.sizeAll reading.children < bound →
      Foreseen (Text.byteSize front) (TriesType rules config short name place) reading.children)

include types in
theorem unit_foreseen {slot : Placeholder} (several : slot.target.single? = none)
    (inside : start.In front) {found : Reading ε κ}
    (member : found ∈ unit (within (context.continued more) long) slot (start.continued more))
    (small : found.node.size ≤ bound) :
    Foreseen (Text.byteSize front) (TriesUnit rules config short context slot start)
      [found.node] := by
  cases target : slot.target with
  | charClass set => simp [unit, target] at member
  | builtin type =>
    have numeric : type.accepts? = none := by simpa [target, Target.single?] using several
    simp only [unit, target] at member
    exact foreseen_word member (.number start target) ⟨rfl, rfl, rfl⟩ fun stop listed =>
      number_ended inside numeric listed
  | named type =>
    simp only [unit, target, List.mem_map] at member
    obtain ⟨reading, asked, rfl⟩ := member
    obtain ⟨other, read⟩ := mem_within.mp asked
    rw [Node.size_eq] at small
    have smaller : 1 + Node.sizeAll reading.children ≤ bound := small
    have inner := types type start inside reading read (by omega)
    refine Foreseen.around (inner.mono fun attempt tried => .type target ?_ tried) rfl
    rintro rfl
    exact other rfl

theorem opening_foreseen {slot : Placeholder} {count : Nat} (inside : start.In front)
    (further : slot.quantifier.allowsMore count = true) {opening : Chain ε κ}
    (opened : opening ∈ openings config count (start.continued more)) :
    Foreseen (Text.byteSize front) (TriesUnits rules config short context slot count start)
      opening.nodes := by
  have nothing : Foreseen (ε := ε) (κ := κ) (Text.byteSize front)
      (TriesUnits rules config short context slot count start) [] := by simp [Foreseen]
  rw [openings] at opened
  split at opened
  next text separator =>
    split at opened
    next =>
      obtain rfl := List.mem_singleton.mp opened
      exact nothing
    next later =>
      obtain ⟨found, word, rfl⟩ := List.mem_map.mp opened
      exact foreseen_word word (.separator start further later separator)
        (literalAttempt_begins text start) fun stop listed => literal_ended inside listed
  next =>
    obtain rfl := List.mem_singleton.mp opened
    exact nothing

include fronts types in
theorem units_foreseen {slot : Placeholder} (several : slot.target.single? = none) {count : Nat}
    {start : Cursor} (inside : start.In front) {chain : Chain ε κ}
    (member : chain ∈ units config (within (context.continued more) long) slot count
      (start.continued more))
    (small : Node.sizeAll chain.nodes ≤ bound) :
    Foreseen (Text.byteSize front) (TriesUnits rules config short context slot count start)
      chain.nodes := by
  have within := fronts.within context
  rcases mem_units.mp member with
    ⟨further, opening, opened, found, read, shorter, tail, later, rfl⟩ | ⟨-, rfl⟩
  swap
  · simp [Foreseen]
  have unit := derives_of_mem_unit within.whole read
  obtain ⟨_, _, rest⟩ := derives_of_mem_units within.whole later
  obtain ⟨_, before⟩ := unit.passes
  obtain ⟨_, behind⟩ := rest.passes
  simp only [Node.sizeAll_append, Node.sizeAll] at small
  refine (opening_foreseen inside further opened).append ?_
  -- What begins behind the end of the beginning does not matter.
  by_cases early : opening.stop.offset ≤ Text.byteSize front
  swap
  · exact .of_behind (layout_between.append before behind (layout_between.unit unit)
      (layout_between.units rest)) (Nat.lt_of_not_le early)
  obtain ⟨opening', opened', same⟩ := (openings_restricts count inside).exists_of_map opened early
  obtain ⟨_, passes⟩ := (mem_openings.mp opened').passes
  have inside' := inside.passes passes
  rw [same] at read
  refine Foreseen.cons ?_ ?_
  · exact (unit_foreseen types several inside' read (by omega)).mono fun attempt tried =>
      .here further opened' tried
  by_cases early : found.stop.offset ≤ Text.byteSize front
  swap
  · exact .of_behind (layout_between.units rest) (Nat.lt_of_not_le early)
  obtain ⟨found', read', same⟩ := (unit_restricts within slot inside').exists_of_map read early
  obtain ⟨_, passes'⟩ := (derives_of_mem_unit within.beginning read').passes
  rw [same] at later
  have shorter : found'.stop.rest.length < start.rest.length := by
    simpa [same] using shorter
  exact (units_foreseen several (inside'.passes passes') later (by omega)).mono
    fun attempt tried => .later further opened' read' shorter tried
termination_by start.rest.length

include fronts types in
theorem item_foreseen {item : Item} (inside : start.In front) {found : Reading ε κ}
    (member : found ∈ Enumerate.item config (within (context.continued more) long) item
      (start.continued more)) (small : found.node.size ≤ bound) :
    Foreseen (Text.byteSize front) (TriesItem rules config short context item start)
      [found.node] := by
  cases item with
  | literal text span =>
    exact foreseen_word member (.literal start) (literalAttempt_begins text start)
      fun stop listed => literal_ended inside listed
  | placeholder slot =>
    cases target : slot.target.single? with
    | some accepts =>
      simp only [Enumerate.item, target] at member
      exact foreseen_word member (.run start target) ⟨rfl, rfl, rfl⟩ fun stop listed =>
        run_ended inside listed
    | none =>
      by_cases one : slot.quantifier = .one
      · simp only [Enumerate.item, target, if_pos one] at member
        exact (unit_foreseen types target inside member small).mono fun attempt tried =>
          .single target one tried
      · simp only [Enumerate.item, target, if_neg one, List.mem_map] at member
        obtain ⟨chain, read, rfl⟩ := member
        have smaller : 1 + Node.sizeAll chain.nodes ≤ bound := by rwa [Node.size_eq] at small
        have units := units_foreseen fronts types target inside read (by omega)
        exact Foreseen.around (units.mono fun attempt tried => .repetition target one tried) rfl

variable (context) in
include fronts types in
theorem items_foreseen {list : List Item} (inside : start.In front) {chain : Chain ε κ}
    (member : chain ∈ items config (within (context.continued more) long) list
      (start.continued more)) (small : Node.sizeAll chain.nodes ≤ bound) :
    Foreseen (Text.byteSize front) (TriesItems rules config short context list start)
      chain.nodes := by
  have within := fronts.within context
  induction list generalizing start chain with
  | nil =>
    obtain rfl := List.mem_singleton.mp member
    simp [Foreseen]
  | cons first rest ih =>
    simp only [items, List.mem_flatMap, List.mem_map] at member
    obtain ⟨found, read, tail, later, rfl⟩ := member
    simp only [Node.sizeAll] at small
    refine Foreseen.cons ?_ ?_
    · exact (item_foreseen fronts types inside read (by omega)).mono fun attempt tried => .here tried
    by_cases early : found.stop.offset ≤ Text.byteSize front
    swap
    · exact .of_behind (layout_between.items (derives_of_mem_items within.whole later))
        (Nat.lt_of_not_le early)
    obtain ⟨found', read', same⟩ := (item_restricts within first inside).exists_of_map read early
    obtain ⟨_, passes⟩ := (derives_of_mem_item within.beginning read').passes
    rw [same] at later
    exact (ih (inside.passes passes) later (by omega)).mono fun attempt tried => .later read' tried

end

/-! ### Types and sentences -/

variable {registry : Registry ε κ}

theorem type_foreseen
    (noMutual : NoMutualLeftRecursion registry.alternatives config (front ++ more)) (bound : Nat) :
    ∀ name (place : Cursor), place.In front →
      ∀ reading ∈ canonical registry config (front ++ more) name (place.continued more),
        Node.sizeAll reading.children < bound → Foreseen (Text.byteSize front)
          (TriesType registry.alternatives config (canonical registry config front) name place)
          reading.children := by
  induction bound with
  | zero => exact fun _ _ _ _ _ small => absurd small (Nat.not_lt_zero _)
  | succ bound ih =>
    intro name place inside reading member small
    rw [canonical_unfold noMutual (inside.continued more)] at member
    simp only [Enumerate.oneOf, List.mem_flatMap, List.mem_map] at member
    obtain ⟨chosen, registered, chain, read, rfl⟩ := member
    exact (items_foreseen (some (name, place)) (canonical_fronts noMutual) ih inside read
      (Nat.le_of_lt_succ small)).mono fun attempt tried => .alternative registered tried

/-- If a sentence goes on behind the end of the beginning, the beginning cuts it off at the leaf that
is there. -/
theorem sentence_foreseen
    (noMutual : NoMutualLeftRecursion registry.alternatives config (front ++ more))
    (inside : start.In front) {reading : TypeReading ε κ}
    (member : reading ∈ Enumerate.oneOf config (canonical registry config (front ++ more))
      registry.sentences (start.continued more)) :
    Foreseen (Text.byteSize front) (fun attempt => ∃ chosen ∈ registry.sentences,
      TriesItems registry.alternatives config (canonical registry config front) none
        chosen.pattern.items start attempt) reading.children := by
  simp only [Enumerate.oneOf, List.mem_flatMap, List.mem_map] at member
  obtain ⟨chosen, registered, chain, read, rfl⟩ := member
  exact (items_foreseen none (canonical_fronts noMutual) (type_foreseen noMutual _)
    inside read (Nat.le_refl _)).mono fun attempt tried => ⟨chosen, registered, tried⟩

end Matching
end SentenceGrammar
