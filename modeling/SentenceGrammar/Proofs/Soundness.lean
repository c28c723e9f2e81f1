import SentenceGrammar.Proofs.FirstPerPlace
import SentenceGrammar.Proofs.Repetition

/-!
# Soundness of searches

Whatever a search finds, derives. The invariant is that every reading of a type that is remembered
derives at its place; dropping readings and cutting left recursion only leaves fewer of them, so it
holds for all grammars.
-/
namespace SentenceGrammar.Matching

variable {ε κ : Type} {rules : String → List (Alternative ε κ)} {text : List Char}
  {kept : Known ε κ → Prop} {scope : Scope ε κ} {named : TypeReader ε κ} {start : Cursor}

/-! ### Items -/

/-- What is found for a type derives by one of its alternatives. -/
def FindsDerived (rules : String → List (Alternative ε κ)) (config : Config) (name : String)
    (place : Cursor) (readings : TypeReadings ε κ) : Prop :=
  ∀ reading ∈ readings.whole, DerivesOneOf rules config (rules name) place reading

variable (rules text kept scope named) in
/-- At every place of the text, `named` finds only derivations. -/
def NamedSound : Prop :=
  ∀ name (place : Cursor), place.In text →
    Ensures kept (named scope name place) (FindsDerived rules scope.config name place)

theorem readUnit_derives (sound : NamedSound rules text kept scope named) {slot : Placeholder}
    (several : slot.target.single? = none) (inside : start.In text) :
    Ensures kept (readUnit scope named slot start) fun readings =>
      ∀ reading ∈ readings.whole,
        DerivesUnit rules scope.config slot start reading.stop reading.node := by
  rw [readUnit]
  cases target : slot.target with
  | charClass set => exact .pure (by simp)
  | builtin type =>
    have numeric : type.accepts? = none := by simpa [target, Target.single?] using several
    refine (readNumber_words slot numeric).weaken fun readings words => ?_
    rintro ⟨stop, node⟩ member
    simp only [words, mem_words] at member
    obtain ⟨word, passes, accepted, rfl⟩ := member
    exact .number target (Numeral.accepts_iff.mp accepted) passes
  | named type =>
    dsimp only
    rw [readNamed]
    split
    next defined =>
      refine (sound type start inside).bind fun readings derived => .pure ?_
      rintro ⟨stop, node⟩ member
      simp only [List.mem_map, Reading.mk.injEq] at member
      obtain ⟨found, registered, rfl, rfl⟩ := member
      obtain ⟨chosen, items⟩ := derived found registered
      obtain ⟨word, passes⟩ := items.passes
      rw [Node.covering_eq passes]
      exact .type target chosen items passes
    next => exact .afterExpect (.pure (by simp))

-- The tails of a repetition of which every chain derives.
private def TailsDerive (rules : String → List (Alternative ε κ)) (config : Config)
    (slot : Placeholder) (count : Nat) (start : Cursor) (chains : List (Chain ε κ)) : Prop :=
  ∀ chain ∈ chains, ∃ total, slot.quantifier.admits total = true ∧
    DerivesUnits rules config slot count total start chain.stop chain.nodes

private theorem behind_derives {config : Config} {slot : Placeholder} {count : Nat}
    {opening : Chain ε κ} {found : List (Reading ε κ)} {chains : List (Chain ε κ)}
    (separator : Opening config count start opening.stop opening.nodes)
    (units : ∀ reading ∈ found,
      DerivesUnit rules config slot opening.stop reading.stop reading.node)
    (behind : Behind (TailsDerive rules config slot) count start opening found chains) :
    TailsDerive rules config slot count start chains := by
  induction behind with
  | nil => simp [TailsDerive]
  | still _ _ ih => exact ih fun reading member => units reading (List.mem_cons_of_mem _ member)
  | @moved reading rest tails chains moves derived _ ih =>
    intro chain member
    rcases List.mem_append.mp member with first | later
    · obtain ⟨tail, found, rfl⟩ := List.mem_map.mp first
      obtain ⟨total, admitted, behind⟩ := derived tail found
      exact ⟨total, admitted, .more separator (units reading List.mem_cons_self) moves behind⟩
    · exact ih (fun reading member => units reading (List.mem_cons_of_mem _ member)) chain later

private theorem tailRule_derives (sound : NamedSound rules text kept scope named)
    {slot : Placeholder} (several : slot.target.single? = none) :
    TailRule scope.config slot.quantifier
      (fun place found => ∀ reading ∈ found,
        DerivesUnit rules scope.config slot place reading.stop reading.node)
      (TailsDerive rules scope.config slot) text kept (readUnit scope named slot)
      fun _ place => place.In text where
  inside := id
  unit inside _ opened := by
    obtain ⟨word, passes⟩ := (mem_openings.mp opened).passes
    exact readUnit_derives sound several (inside.passes passes)
  next inside _ opened units member moves := by
    have derived := units _ member
    obtain ⟨front, before⟩ := (mem_openings.mp opened).passes
    obtain ⟨word, behind⟩ := derived.passes
    have moved := before.trans behind
    exact ⟨inside.passes moved, moved.rest_lt_iff.mpr moves⟩
  tail {count start chains} inside further := by
    intro chain member
    have appended := (keepNew_sublist _ _ _).subset member
    rcases List.mem_append.mp appended with more | here
    · cases further with
      | full => simp at more
      | unopened => simp at more
      | unit _ opened units behind =>
        have separator := mem_openings.mp (opened ▸ List.mem_cons_self)
        exact behind_derives separator units behind chain more
    · obtain ⟨admitted, last⟩ := List.mem_ite_nil_right.mp here
      obtain rfl := List.mem_singleton.mp last
      exact ⟨count, admitted, .done _ _ _⟩

/-- The chains of a repetition are units in a row, as many as the quantifier admits. -/
theorem readRepeated_derives (sound : NamedSound rules text kept scope named)
    {slot : Placeholder} (several : slot.target.single? = none) (inside : start.In text) :
    Ensures kept ((readRepeated scope (readUnit scope named slot) slot.quantifier
        (start.rest.length + 1) 0 start).run []) fun repeated =>
      ∀ chain ∈ repeated.1.whole, ∃ total, slot.quantifier.admits total = true ∧
        DerivesUnits rules scope.config slot 0 total start chain.stop chain.nodes := by
  have tails := readRepeated_tails (tailRule_derives sound several) (Nat.lt_succ_self _)
    (counts_zero slot.quantifier) inside
  exact (tails [] (by simp)).weaken fun repeated holds => holds.1 0 (counts_zero _) inside

theorem readRepetition_derives (sound : NamedSound rules text kept scope named)
    {slot : Placeholder} (several : slot.target.single? = none) (repeats : slot.quantifier ≠ .one)
    (inside : start.In text) :
    Ensures kept (readRepetition scope named slot start) fun readings =>
      ∀ reading ∈ readings.whole,
        DerivesItem rules scope.config (.placeholder slot) start reading.stop reading.node := by
  rw [readRepetition]
  refine (readRepeated_derives sound several inside).bind fun repeated holds => .pure ?_
  rintro ⟨stop, node⟩ member
  simp only [List.mem_map, Reading.mk.injEq] at member
  obtain ⟨chain, found, rfl, rfl⟩ := member
  obtain ⟨total, admitted, derived⟩ := holds chain found
  obtain ⟨word, passes⟩ := derived.passes
  rw [Node.covering_eq passes]
  exact .repetition several repeats admitted derived passes

theorem readItem_derives (sound : NamedSound rules text kept scope named) (item : Item)
    (inside : start.In text) :
    Ensures kept (readItem scope named item start) fun readings =>
      ∀ reading ∈ readings.whole,
        DerivesItem rules scope.config item start reading.stop reading.node := by
  cases item with
  | literal text span =>
    refine (readLiteral_words text).weaken fun readings words => ?_
    rintro ⟨stop, node⟩ member
    simp only [words, mem_literal] at member
    obtain ⟨passes, rfl⟩ := member
    exact .literal passes
  | placeholder slot =>
    rw [readItem]
    cases single : slot.target.single? with
    | some accepts =>
      rw [readPlaceholder_run scope named start single]
      refine (readRun_words slot accepts _ slot.runKind).weaken fun readings words => ?_
      rintro ⟨stop, node⟩ member
      simp only [words, mem_words, Bool.and_eq_true] at member
      obtain ⟨word, passes, ⟨accepted, count⟩, rfl⟩ := member
      exact .run single accepted count passes
    | none =>
      rw [readPlaceholder_several single]
      split
      next one =>
        refine (readUnit_derives sound single inside).weaken fun readings derived => ?_
        exact fun reading member => .single single one (derived reading member)
      next repeats => exact readRepetition_derives sound single repeats inside

/-- A chain that is kept is one of those before it with one node more. -/
theorem exists_before {related : Chain ε κ → Chain ε κ × Readings ε κ → Prop}
    {chains : List (Chain ε κ)} {found : List (Chain ε κ × Readings ε κ)}
    (all : List.Forall₂ related chains found)
    (same : ∀ chain after, related chain after → after.1 = chain) {chain : Chain ε κ}
    (member : chain ∈ firstPerStop (found.flatMap fun after => after.2.whole.map
      fun reading => ⟨reading.stop, after.1.nodes ++ [reading.node]⟩)) :
    ∃ before ∈ chains, ∃ after, related before after ∧ ∃ reading ∈ after.2.whole,
      chain = ⟨reading.stop, before.nodes ++ [reading.node]⟩ := by
  have appended := (keepNew_sublist _ _ _).subset member
  simp only [List.mem_flatMap, List.mem_map] at appended
  obtain ⟨after, registered, reading, read, rfl⟩ := appended
  obtain ⟨before, earlier, holds⟩ := exists_of_forall₂ all registered
  rw [same before after holds]
  exact ⟨before, earlier, after, holds, reading, read, rfl⟩

-- What was found for an item behind a chain derives.
private def ReadAfter (rules : String → List (Alternative ε κ)) (config : Config) (item : Item)
    (chain : Chain ε κ) (found : Chain ε κ × Readings ε κ) : Prop :=
  found.1 = chain ∧ ∀ reading ∈ found.2.whole,
    DerivesItem rules config item chain.stop reading.stop reading.node

/-- Each chain that is found goes on from one of the given chains by the items. -/
theorem readItems_derives (sound : NamedSound rules text kept scope named) (items : List Item)
    {chains : List (Chain ε κ)} (inside : ∀ chain ∈ chains, chain.stop.In text) :
    Ensures kept (readItems scope named items chains) fun found =>
      ∀ chain ∈ found.whole, ∃ before ∈ chains, ∃ nodes, chain.nodes = before.nodes ++ nodes ∧
        DerivesItems rules scope.config items before.stop chain.stop nodes := by
  induction items generalizing chains with
  | nil =>
    rw [readItems]
    exact .pure fun chain member => ⟨chain, member, [], (List.append_nil _).symm, .nil _⟩
  | cons item rest ih =>
    rw [readItems]
    refine (Ensures.mapM (ReadAfter rules scope.config item) fun chain member => ?each).bind
      fun found related => ?behind
    case each =>
      refine (readItem_derives sound item (inside chain member)).bind fun readings derived => ?_
      exact .pure ⟨rfl, derived⟩
    case behind =>
      -- A chain that goes on is one of the given chains with the node of this item.
      have next {chain : Chain ε κ} (member : chain ∈ firstPerStop (found.flatMap
          fun after => after.2.whole.map
            fun reading => ⟨reading.stop, after.1.nodes ++ [reading.node]⟩)) :
          ∃ before ∈ chains, ∃ node, chain.nodes = before.nodes ++ [node] ∧
            DerivesItem rules scope.config item before.stop chain.stop node := by
        obtain ⟨before, earlier, after, ⟨-, derived⟩, reading, read, rfl⟩ :=
          exists_before related (fun _ _ holds => holds.1) member
        exact ⟨before, earlier, _, rfl, derived reading read⟩
      refine (ih fun chain member => ?_).bind fun behind derived => .pure fun chain member => ?_
      · obtain ⟨before, earlier, node, -, derived⟩ := next member
        obtain ⟨word, passes⟩ := derived.passes
        exact (inside before earlier).passes passes
      · obtain ⟨middle, reached, nodes, shown, rest⟩ := derived chain member
        obtain ⟨before, earlier, node, first, derived⟩ := next reached
        exact ⟨before, earlier, node :: nodes, by simp [shown, first], .cons derived rest⟩

-- The chains that were found for an alternative are readings by it.
private def ReadBy (rules : String → List (Alternative ε κ)) (config : Config) (start : Cursor)
    (alternative : Alternative ε κ) (found : Alternative ε κ × Chains ε κ) : Prop :=
  found.1 = alternative ∧ ∀ chain ∈ found.2.whole,
    DerivesItems rules config alternative.pattern.items start chain.stop chain.nodes

theorem readAlternatives_derives (sound : NamedSound rules text kept scope named)
    (alternatives : List (Alternative ε κ)) (inside : start.In text) :
    Ensures kept (readAlternatives scope named alternatives start) fun readings =>
      ∀ reading ∈ readings.whole, DerivesOneOf rules scope.config alternatives start reading := by
  rw [readAlternatives]
  refine (Ensures.mapM (ReadBy rules scope.config start) fun alternative member => ?each).bind
    fun found related => .pure fun reading member => ?whole
  case each =>
    have alone : ∀ chain ∈ ([⟨start, []⟩] : List (Chain ε κ)), chain.stop.In text := by
      simpa using inside
    refine (readItems_derives sound alternative.pattern.items alone).bind fun chains derived => ?_
    refine .pure ⟨rfl, fun chain found => ?_⟩
    obtain ⟨before, here, nodes, shown, items⟩ := derived chain found
    -- The reading began with the empty chain, so its nodes are those of the items.
    obtain rfl := List.mem_singleton.mp here
    rwa [shown, List.nil_append]
  case whole =>
    have found := (keepNew_sublist _ _ _).subset member
    simp only [List.mem_flatMap, List.mem_map] at found
    obtain ⟨⟨_, chains⟩, registered, chain, read, rfl⟩ := found
    obtain ⟨alternative, listed, rfl, derived⟩ := exists_of_forall₂ related registered
    exact ⟨listed, derived chain read⟩

/-! ### Types -/

/-- What is remembered of a type derives at the places of the text. -/
def EntryDerives (rules : String → List (Alternative ε κ)) (config : Config) (text : List Char)
    (entry : (String × Nat) × TypeReadings ε κ) : Prop :=
  ∀ place : Cursor, place.In text → place.offset = entry.1.2 →
    FindsDerived rules config entry.1.1 place entry.2

/-- Everything that is remembered derives. -/
def Derived (scope : Scope ε κ) (text : List Char) (known : Known ε κ) : Prop :=
  ∀ entry ∈ known, EntryDerives scope.registry.alternatives scope.config text entry

theorem readType_derives (text : List Char) (levels : Nat) (scope : Scope ε κ) :
    NamedSound scope.registry.alternatives text (Derived scope text) scope (readType levels) := by
  induction levels generalizing scope with
  | zero => exact fun name place _ => .pure (by simp [FindsDerived])
  | succ levels ih =>
    intro name place inside
    rw [readType]
    refine (Ensures.lookUp name place).bind fun found entry => ?_
    split
    next known => exact .pure (entry known rfl place inside rfl)
    next =>
      split
      -- Cut: no reading, and nothing is remembered.
      · exact .pure (by simp [FindsDerived])
      · have inner := ih { scope with active := scope.active ++ [(name, place.offset)] }
        refine (readAlternatives_derives inner _ inside).bind fun readings derived => ?_
        -- What is remembered under the offset may be asked for at any place with that offset.
        refine Ensures.bind (Ensures.remember fun other inside' same => ?_) fun _ _ => .pure derived
        obtain rfl := inside'.eq_of_offset inside same
        exact derived

end SentenceGrammar.Matching
