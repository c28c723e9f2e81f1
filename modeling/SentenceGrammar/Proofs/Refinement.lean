import SentenceGrammar.Proofs.FirstPerPlace
import SentenceGrammar.Proofs.LeftRecursion
import SentenceGrammar.Proofs.ScriptSoundness

/-!
# Searching refines plain backtracking

A search finds, in the same order, the first reading for each place that plain backtracking finds.
Readings are dropped after every item, every unit and every alternative, but only for earlier ones
that stop at the same place, and what follows depends on the place alone. What is remembered of a
type was found while others were being read; since none of those can be asked for again, that makes
no difference either.
-/
namespace SentenceGrammar.Matching

open Enumerate

variable {ε κ : Type}

def firstReadings (readings : List (Reading ε κ)) : List (Reading ε κ) :=
  keepNew (fun reading => reading.stop.offset) [] readings

def firstTypeReadings (readings : List (TypeReading ε κ)) : List (TypeReading ε κ) :=
  keepNew (fun reading => reading.stop.offset) [] readings

variable {rules : String → List (Alternative ε κ)} {text : List Char} {kept : Known ε κ → Prop}
  {scope : Scope ε κ} {named : TypeReader ε κ} {ask : String → Cursor → List (TypeReading ε κ)}
  {asked : String × Cursor → Prop} {start : Cursor}

variable (rules kept scope named ask asked) in
/-- Wherever a type may be asked for, `named` finds the first of the readings that `ask` lists. -/
structure NamedRefines : Prop where
  sound : Sound rules scope.config ask
  undefined : ∀ name place, scope.registry.containsType name = false → ask name place = []
  named : ∀ name place, asked (name, place) → Ensures kept (named scope name place)
    fun readings => readings.whole = firstTypeReadings (ask name place)

theorem firstReadings_words (language : List Char → Bool) (name : Option String)
    (kind : NodeKind ε κ) (start : Cursor) :
    firstReadings (words language name kind start) = words language name kind start := by
  refine keepNew_of_pairwise ?_ (by simp)
  rw [words, List.pairwise_map]
  exact (Cursor.pairwise_behind language start).imp fun further => (Nat.ne_of_lt further).symm

/-! ### Units and repetitions -/

theorem readUnit_refines (refines : NamedRefines rules kept scope named ask asked)
    {slot : Placeholder} (several : slot.target.single? = none)
    (asks : ∀ name, slot.target = .named name → asked (name, start)) :
    Ensures kept (readUnit scope named slot start) fun readings =>
      readings.whole = firstReadings (unit ask slot start) := by
  rw [readUnit, unit]
  cases target : slot.target with
  | charClass set => exact .pure rfl
  | builtin type =>
    have numeric : type.accepts? = none := by simpa [target, Target.single?] using several
    refine (readNumber_words slot numeric).weaken fun readings words => ?_
    rw [words]
    exact (firstReadings_words _ _ _ _).symm
  | named type =>
    dsimp only
    rw [readNamed]
    split
    next =>
      refine (refines.named type start (asks type target)).bind fun readings found => .pure ?_
      rw [found, firstReadings, keepNew_map]
      rfl
    next undefined =>
      rw [refines.undefined type start (Bool.not_eq_true _ ▸ undefined)]
      exact .afterExpect (.pure rfl)

/-- A separator can be read in one way only. -/
theorem openings_unique {config : Config} {count : Nat} {opening : Chain ε κ}
    {others : List (Chain ε κ)} (opened : openings config count start = opening :: others) :
    others = [] := by
  rw [openings] at opened
  split at opened
  next separator _ =>
    split at opened
    · exact (List.cons.inj opened).2.symm
    · rw [words, ← scanLiteral_stops] at opened
      -- A literal has at most one stop.
      cases scanned : scanLiteral separator.toList start <;>
        simp_all [LiteralScan.stops]
  next => exact (List.cons.inj opened).2.symm

-- The chains that begin with one of several units.
private def behindUnit (config : Config) (ask : String → Cursor → List (TypeReading ε κ))
    (slot : Placeholder) (count : Nat) (start : Cursor) (opening : Chain ε κ)
    (found : Reading ε κ) : List (Chain ε κ) :=
  if found.stop.rest.length < start.rest.length then
    (units config ask slot (count + 1) found.stop).map fun tail =>
      ⟨tail.stop, opening.nodes ++ found.node :: tail.nodes⟩
  else []

private theorem behind_eq {config : Config} {slot : Placeholder} {count : Nat}
    {opening : Chain ε κ} {found : List (Reading ε κ)} {chains : List (Chain ε κ)}
    (separator : Opening config count start opening.stop opening.nodes)
    (derived : ∀ reading ∈ found,
      DerivesUnit rules config slot opening.stop reading.stop reading.node)
    (behind : Behind
      (fun count place list => list = firstPerStop (units config ask slot count place))
      count start opening found chains) :
    chains = found.flatMap fun reading =>
      keepNew (fun chain => chain.stop.offset) []
        (behindUnit config ask slot count start opening reading) := by
  induction behind with
  | nil => rfl
  | @still reading rest chains stands _ ih =>
    have stays := mt (moved_iff separator (derived reading List.mem_cons_self)).mp
      (not_not_intro stands)
    rw [List.flatMap_cons, behindUnit, if_neg stays,
      ← ih fun reading member => derived reading (List.mem_cons_of_mem _ member)]
    rfl
  | @moved reading rest tails chains moves holds _ ih =>
    have goes := (moved_iff separator (derived reading List.mem_cons_self)).mpr moves
    rw [List.flatMap_cons, behindUnit, if_pos goes, keepNew_map, holds,
      ← ih fun reading member => derived reading (List.mem_cons_of_mem _ member)]
    rfl

-- One more unit, and then the first tails, are as good as all tails behind all units.
private theorem further_refines {config : Config} {slot : Placeholder} {count : Nat}
    (sound : Sound rules config ask) (inside : start.In text) {chains : List (Chain ε κ)}
    (further : Further config slot.quantifier
      (fun place list => list = firstReadings (unit ask slot place))
      (fun count place list => list = firstPerStop (units config ask slot count place))
      count start chains) :
    firstPerStop (chains ++ if slot.quantifier.admits count then [⟨start, []⟩] else []) =
      firstPerStop (units config ask slot count start) := by
  rw [units]
  apply keepNew_append_congr
  cases further with
  | full no => rw [no]; rfl
  | unopened more none => rw [more, none]; rfl
  | @unit opening others found _ more opened read behind =>
    obtain rfl := openings_unique opened
    have separator : Opening config count start opening.stop opening.nodes :=
      mem_openings.mp (opened ▸ List.mem_cons_self)
    have derived (reading) (member : reading ∈ unit ask slot opening.stop) :=
      derives_of_mem_unit sound member
    have kept : ∀ reading ∈ found,
        DerivesUnit rules config slot opening.stop reading.stop reading.node := fun reading member =>
      derived reading ((keepNew_sublist _ _ _).subset (read ▸ member))
    -- The inner selections go away, and then so does the one among the units.
    rw [if_pos more, opened, List.flatMap_singleton, behind_eq separator kept behind,
      keepNew_flatMap_keepNew, read]
    refine keepNew_keepNew_flatMap _ _ _ _ ?_
    intro first firstIn second secondIn same chain member
    -- Units that stop at the same place have the same tails.
    have there : first.stop = second.stop := by
      obtain ⟨_, before⟩ := separator.passes
      obtain ⟨_, one⟩ := (derived first firstIn).passes
      obtain ⟨_, other⟩ := (derived second secondIn).passes
      exact ((inside.passes before).passes one).eq_of_offset
        ((inside.passes before).passes other) same
    obtain ⟨goes, member⟩ := List.mem_ite_nil_right.mp member
    obtain ⟨tail, behind, rfl⟩ := List.mem_map.mp member
    rw [← there] at goes behind
    exact ⟨_, List.mem_ite_nil_right.mpr ⟨goes, List.mem_map.mpr ⟨tail, behind, rfl⟩⟩, rfl⟩

private theorem tailRule_refines (refines : NamedRefines rules kept scope named ask asked)
    {slot : Placeholder} (several : slot.target.single? = none) :
    TailRule scope.config slot.quantifier
      (fun place list => list = firstReadings (unit ask slot place))
      (fun count place list => list = firstPerStop (units scope.config ask slot count place))
      text kept (readUnit scope named slot)
      fun count place => place.In text ∧ ∀ name there, slot.target = .named name →
        UnitAt rules scope.config slot count place there → asked (name, there) where
  inside := And.left
  unit reach more opened := readUnit_refines refines several fun name target =>
    reach.2 name _ target (.here more (mem_openings.mp opened))
  next reach more opened read member moves := by
    have separator := mem_openings.mp opened
    have derived :=
      derives_of_mem_unit refines.sound ((keepNew_sublist _ _ _).subset (read ▸ member))
    obtain ⟨_, before⟩ := separator.passes
    obtain ⟨_, behind⟩ := derived.passes
    refine ⟨⟨reach.1.passes (before.trans behind), fun name there target later => ?_⟩,
      (moved_iff separator derived).mpr moves⟩
    exact reach.2 name there target (.later more separator derived moves later)
  tail reach further := further_refines refines.sound reach.1 further

theorem readRepetition_refines (refines : NamedRefines rules kept scope named ask asked)
    {slot : Placeholder} (several : slot.target.single? = none) (repeats : slot.quantifier ≠ .one)
    (inside : start.In text)
    (asks : ∀ name place, slot.target = .named name →
      UnitAt rules scope.config slot 0 start place → asked (name, place)) :
    Ensures kept (readRepetition scope named slot start) fun readings =>
      readings.whole = firstReadings (item scope.config ask (.placeholder slot) start) := by
  have tails := readRepeated_tails (tailRule_refines refines several) (Nat.lt_succ_self _)
    (counts_zero slot.quantifier) ⟨inside, asks⟩
  rw [readRepetition]
  refine (tails [] (by simp)).bind fun repeated holds => .pure ?_
  have whole := holds.1 0 (counts_zero _) ⟨inside, asks⟩
  simp only [item, several, if_neg repeats]
  rw [whole, firstReadings, keepNew_map]
  rfl

/-! ### Sequences and alternatives -/

theorem readItem_refines (refines : NamedRefines rules kept scope named ask asked) {first : Item}
    {rest : List Item} (inside : start.In text)
    (asks : ∀ pair, ItemsAsk rules scope.config (first :: rest) start pair → asked pair) :
    Ensures kept (readItem scope named first start) fun readings =>
      readings.whole = firstReadings (item scope.config ask first start) := by
  cases first with
  | literal text span =>
    refine (readLiteral_words text).weaken fun readings words => ?_
    rw [words, item, firstReadings_words]
  | placeholder slot =>
    have repeated (name place) (target : slot.target = .named name)
        (unit : UnitAt rules scope.config slot 0 start place) : asked (name, place) :=
      asks (name, place) (.here target unit)
    rw [readItem]
    cases single : slot.target.single? with
    | some accepts =>
      rw [readPlaceholder_run scope named start single]
      refine (readRun_words slot accepts _ slot.runKind).weaken fun readings words => ?_
      simp only [item, single]
      rw [words, firstReadings_words]
    | none =>
      rw [readPlaceholder_several single]
      split
      next one =>
        have more : slot.quantifier.allowsMore 0 = true := by
          simp [one, Quantifier.one, Quantifier.allowsMore]
        simp only [item, single, if_pos one]
        exact readUnit_refines refines single fun name target =>
          repeated name start target (.here more (.first _))
      next repeats => exact readRepetition_refines refines single repeats inside repeated

/-- A chain with one more node. -/
def addNode (chain : Chain ε κ) (reading : Reading ε κ) : Chain ε κ :=
  ⟨reading.stop, chain.nodes ++ [reading.node]⟩

/-- A chain with each of the readings of the next item. -/
def behindItem (config : Config) (ask : String → Cursor → List (TypeReading ε κ))
    (first : Item) (chain : Chain ε κ) : List (Chain ε κ) :=
  (item config ask first chain.stop).map (addNode chain)

-- A chain with everything that the remaining items may be read as.
private def behindChain (config : Config) (ask : String → Cursor → List (TypeReading ε κ))
    (list : List Item) (chain : Chain ε κ) : List (Chain ε κ) :=
  (items config ask list chain.stop).map fun tail => ⟨tail.stop, chain.nodes ++ tail.nodes⟩

private theorem behindChain_cons (config : Config)
    (ask : String → Cursor → List (TypeReading ε κ)) (first : Item) (rest : List Item)
    (chain : Chain ε κ) :
    behindChain config ask (first :: rest) chain =
      (behindItem config ask first chain).flatMap (behindChain config ask rest) := by
  simp [behindChain, behindItem, items, List.map_flatMap, List.flatMap_map, addNode,
    Function.comp_def]

theorem firstPerStop_found {config : Config} {first : Item} {chains : List (Chain ε κ)}
    {found : List (Chain ε κ × Readings ε κ)}
    (related : List.Forall₂ (fun chain found => found.1 = chain ∧
      found.2.whole = firstReadings (item config ask first chain.stop)) chains found) :
    firstPerStop (found.flatMap fun after =>
        after.2.whole.map fun reading => ⟨reading.stop, after.1.nodes ++ [reading.node]⟩) =
      firstPerStop (chains.flatMap (behindItem config ask first)) := by
  rw [firstPerStop, firstPerStop, ← keepNew_flatMap_keepNew _ _ _ chains]
  congr 1
  apply flatMap_of_forall₂ related
  rintro chain ⟨_, readings⟩ ⟨rfl, whole⟩
  dsimp only at whole ⊢
  rw [behindItem, keepNew_map, whole]
  rfl

theorem derives_of_mem_behindItem {config : Config} (sound : Sound rules config ask)
    {first : Item} {chains : List (Chain ε κ)} {chain : Chain ε κ}
    (member : chain ∈ chains.flatMap (behindItem config ask first)) :
    ∃ before ∈ chains, ∃ node, DerivesItem rules config first before.stop chain.stop node := by
  obtain ⟨before, earlier, member⟩ := List.mem_flatMap.mp member
  obtain ⟨reading, read, rfl⟩ := List.mem_map.mp member
  exact ⟨before, earlier, _, derives_of_mem_item sound read⟩

private theorem pairwise_firstPerStop (chains : List (Chain ε κ)) :
    (firstPerStop chains).Pairwise fun first second => first.stop.offset ≠ second.stop.offset :=
  pairwise_keepNew _ _ _

-- Of chains that stop at the same place, one may stand for the others.
private theorem firstPerStop_behind (config : Config)
    (ask : String → Cursor → List (TypeReading ε κ)) (list : List Item)
    {chains : List (Chain ε κ)} (inside : ∀ chain ∈ chains, chain.stop.In text) :
    firstPerStop ((firstPerStop chains).flatMap (behindChain config ask list)) =
      firstPerStop (chains.flatMap (behindChain config ask list)) := by
  refine keepNew_keepNew_flatMap _ _ _ _ fun first firstIn second secondIn same chain member => ?_
  have there := (inside first firstIn).eq_of_offset (inside second secondIn) same
  obtain ⟨tail, found, rfl⟩ := List.mem_map.mp member
  rw [← there] at found
  exact ⟨_, List.mem_map.mpr ⟨tail, found, rfl⟩, rfl⟩

theorem readItems_refines (refines : NamedRefines rules kept scope named ask asked)
    (list : List Item) {chains : List (Chain ε κ)}
    (inside : ∀ chain ∈ chains, chain.stop.In text)
    (asks : ∀ chain ∈ chains, ∀ pair,
      ItemsAsk rules scope.config list chain.stop pair → asked pair)
    (distinct : chains.Pairwise fun first second => first.stop.offset ≠ second.stop.offset) :
    Ensures kept (readItems scope named list chains) fun found =>
      found.whole = firstPerStop (chains.flatMap (behindChain scope.config ask list)) := by
  induction list generalizing chains with
  | nil =>
    rw [readItems]
    have same : behindChain scope.config ask [] = fun chain => [chain] := by
      funext chain
      simp [behindChain, items]
    rw [same, List.flatMap_singleton']
    exact .pure (keepNew_of_pairwise distinct (by simp)).symm
  | cons first rest ih =>
    rw [readItems]
    refine (Ensures.mapM (fun chain found => found.1 = chain ∧
        found.2.whole = firstReadings (item scope.config ask first chain.stop))
      fun chain member => ?each).bind fun found related => ?behind
    case each =>
      refine (readItem_refines refines (inside chain member) (asks chain member)).bind
        fun readings whole => ?_
      exact .pure ⟨rfl, whole⟩
    case behind =>
      rw [firstPerStop_found related]
      have inside' chain (member : chain ∈ chains.flatMap (behindItem scope.config ask first)) :
          chain.stop.In text := by
        obtain ⟨before, earlier, _, derived⟩ := derives_of_mem_behindItem refines.sound member
        obtain ⟨_, passes⟩ := derived.passes
        exact (inside before earlier).passes passes
      refine (ih (fun chain member => inside' chain ((keepNew_sublist _ _ _).subset member))
        (fun chain member pair later => ?asks) (pairwise_firstPerStop _)).bind
          fun behind whole => .pure ?whole
      case asks =>
        obtain ⟨before, earlier, _, derived⟩ :=
          derives_of_mem_behindItem refines.sound ((keepNew_sublist _ _ _).subset member)
        exact asks before earlier pair (.later derived later)
      case whole =>
        -- First the chains are thinned out, then what is behind them: the order does not matter.
        refine whole.trans ((firstPerStop_behind _ _ _ inside').trans ?_)
        rw [List.flatMap_assoc]
        congr 1
        exact List.flatMap_congr fun chain _ => (behindChain_cons _ _ _ _ _).symm

theorem readAlternatives_refines (refines : NamedRefines rules kept scope named ask asked)
    (alternatives : List (Alternative ε κ)) (inside : start.In text)
    (asks : ∀ chosen ∈ alternatives, ∀ pair,
      ItemsAsk rules scope.config chosen.pattern.items start pair → asked pair) :
    Ensures kept (readAlternatives scope named alternatives start) fun readings =>
      readings.whole = firstTypeReadings (oneOf scope.config ask alternatives start) := by
  rw [readAlternatives]
  refine (Ensures.mapM (fun alternative found => found.1 = alternative ∧
      found.2.whole = firstPerStop (items scope.config ask alternative.pattern.items start))
    fun alternative member => ?each).bind fun found related => .pure ?whole
  case each =>
    have alone : ∀ chain ∈ ([⟨start, []⟩] : List (Chain ε κ)), chain.stop.In text := by
      simpa using inside
    refine (readItems_refines refines alternative.pattern.items alone
      (by simpa using asks alternative member) (List.pairwise_singleton _ _)).bind
        fun chains whole => .pure ⟨rfl, ?_⟩
    simpa [behindChain] using whole
  case whole =>
    -- The first chains of each alternative are enough for the first readings of all.
    have parts : (found.flatMap fun after => after.2.whole.map
          fun chain => (⟨chain.stop, after.1, chain.nodes⟩ : TypeReading ε κ)) =
        alternatives.flatMap fun alternative => keepNew (fun reading => reading.stop.offset) []
          ((items scope.config ask alternative.pattern.items start).map
            fun chain => ⟨chain.stop, alternative, chain.nodes⟩) := by
      apply flatMap_of_forall₂ related
      rintro alternative ⟨_, chains⟩ ⟨rfl, whole⟩
      dsimp only at whole ⊢
      rw [keepNew_map, whole]
      rfl
    rw [parts, keepNew_flatMap_keepNew]
    rfl

/-! ### Types -/

/-- The readings of a type as deep as there are names and places, with left recursion cut. -/
def canonical (registry : Registry ε κ) (config : Config) (text : List Char) (name : String)
    (place : Cursor) : List (TypeReading ε κ) :=
  type registry.alternatives config (levelsFor registry text) name place

/-- What is remembered of a type is the first of its readings for each place. -/
def EntryFaithful (registry : Registry ε κ) (config : Config) (text : List Char)
    (entry : (String × Nat) × TypeReadings ε κ) : Prop :=
  ∀ place : Cursor, place.In text → place.offset = entry.1.2 →
    entry.2.whole = firstTypeReadings (canonical registry config text entry.1.1 place)

/-- Everything remembered is faithful, and nothing is remembered yet of the types being read. -/
structure Faithful (registry : Registry ε κ) (config : Config) (text : List Char)
    (chain : List (String × Cursor)) (known : Known ε κ) : Prop where
  entries : ∀ entry ∈ known, EntryFaithful registry config text entry
  fresh : ∀ pair ∈ chain, known.lookup (pair.1, pair.2.offset) = none

/-- The types being read as a search notes them, outermost first. -/
def activeOf (chain : List (String × Cursor)) : List (String × Nat) :=
  (chain.map fun pair => (pair.1, pair.2.offset)).reverse

theorem faithful_nil (registry : Registry ε κ) (config : Config) (text : List Char) :
    Faithful registry config text [] [] :=
  ⟨by simp, by simp⟩

theorem mem_typeNames {registry : Registry ε κ} {name : String}
    (defined : registry.alternatives name ≠ []) : name ∈ registry.typeNames := by
  rw [Registry.alternatives] at defined
  split at defined
  next entry found =>
    rw [Registry.entry?] at found
    have same : entry.name = name := by simpa using List.find?_some found
    exact List.mem_map.mpr ⟨entry, List.mem_of_find?_eq_some found, same⟩
  next => exact absurd rfl defined

theorem canonical_unfold {registry : Registry ε κ} {config : Config}
    (noMutual : NoMutualLeftRecursion registry.alternatives config text) {name : String}
    {place : Cursor} (inside : place.In text) :
    canonical registry config text name place =
      oneOf config (avoiding name place (canonical registry config text))
        (registry.alternatives name) place :=
  type_unfold noMutual (fun _ => mem_typeNames) (by simp [levelsFor, Registry.typeNames]) inside

theorem canonical_sound (registry : Registry ε κ) (config : Config) (text : List Char) :
    Sound registry.alternatives config (canonical registry config text) := type_sound _

/-- Nothing is listed for a type that is not defined. -/
theorem eq_nil_of_undefined {registry : Registry ε κ} {config : Config}
    {ask : String → Cursor → List (TypeReading ε κ)}
    (sound : Sound registry.alternatives config ask) {name : String} (place : Cursor)
    (undefined : registry.containsType name = false) : ask name place = [] := by
  have none : registry.alternatives name = [] := by
    simp only [Registry.containsType, Option.isSome_eq_false_iff, Option.isNone_iff_eq_none]
      at undefined
    simp [Registry.alternatives, undefined]
  rw [List.eq_nil_iff_forall_not_mem]
  intro reading member
  have chosen := (sound name place reading member).1
  rw [none] at chosen
  simp at chosen

section

variable {registry : Registry ε κ} {config : Config} {chain : List (String × Cursor)}
  {name : String} {place : Cursor}

theorem activeOf_cons (chain : List (String × Cursor)) (name : String) (place : Cursor) :
    activeOf chain ++ [(name, place.offset)] = activeOf ((name, place) :: chain) := by
  simp [activeOf]

theorem inactive_of_within {rules : String → List (Alternative ε κ)}
    (within : Within rules config text chain (name, place)) :
    (name, place.offset) ∉ activeOf chain := by
  rw [activeOf, List.mem_reverse, List.mem_map]
  rintro ⟨⟨outer, there⟩, member, same⟩
  obtain ⟨rfl, offset⟩ := Prod.mk.inj same
  obtain rfl := (within.inside _ (List.mem_cons_of_mem _ member)).eq_of_offset
    (within.inside _ List.mem_cons_self) offset
  exact (List.nodup_cons.mp within.distinct).1 member

theorem Faithful.enter {known : Known ε κ}
    (faithful : Faithful registry config text chain known)
    (new : known.lookup (name, place.offset) = none) :
    Faithful registry config text ((name, place) :: chain) known :=
  ⟨faithful.entries, List.forall_mem_cons.mpr ⟨new, faithful.fresh⟩⟩

theorem Faithful.leave {known : Known ε κ} {readings : TypeReadings ε κ}
    (within : Within registry.alternatives config text chain (name, place))
    (whole : readings.whole = firstTypeReadings (canonical registry config text name place))
    (faithful : Faithful registry config text ((name, place) :: chain) known) :
    Faithful registry config text chain (((name, place.offset), readings) :: known) := by
  refine ⟨List.forall_mem_cons.mpr ⟨fun there inside same => ?_, faithful.entries⟩,
    fun pair member => ?_⟩
  · obtain rfl := inside.eq_of_offset (within.inside _ List.mem_cons_self) same
    exact whole
  -- The types that are still being read are other ones, of which nothing is remembered.
  · have other : ((pair.1, pair.2.offset) == (name, place.offset)) = false := by
      rw [beq_eq_false_iff_ne]
      intro same
      refine inactive_of_within within ?_
      rw [← same, activeOf, List.mem_reverse]
      exact List.mem_map.mpr ⟨pair, member, rfl⟩
    rw [List.lookup_cons, other]
    exact faithful.fresh pair (List.mem_cons_of_mem _ member)

-- A type that is asked for within others, the innermost of which has no reading in itself.
theorem named_of_within (noMutual : NoMutualLeftRecursion registry.alternatives config text)
    (completing : Bool) (levels : Nat)
    (within : Within registry.alternatives config text chain (name, place))
    (ih : ∀ {inner : String} {there : Cursor},
      Within registry.alternatives config text ((name, place) :: chain) (inner, there) →
        Ensures (Faithful registry config text ((name, place) :: chain))
          (readType levels ⟨registry, config, completing, activeOf ((name, place) :: chain)⟩ inner
            there)
          fun readings =>
            readings.whole = firstTypeReadings (canonical registry config text inner there)) :
    NamedRefines registry.alternatives (Faithful registry config text ((name, place) :: chain))
      ⟨registry, config, completing, activeOf ((name, place) :: chain)⟩ (readType levels)
      (avoiding name place (canonical registry config text))
      (Asks registry.alternatives config (name, place)) where
  sound := avoiding_sound (canonical_sound registry config text)
  undefined _ there none :=
    eq_nil_of_undefined (avoiding_sound (canonical_sound registry config text)) there none
  named inner there asks := by
    rw [avoiding]
    split
    -- The type that is being read itself: it is cut, as nothing of it is remembered yet.
    next same =>
      obtain ⟨rfl, rfl⟩ := same
      intro progress faithful
      cases levels with
      | zero => exact ⟨rfl, faithful⟩
      | succ levels =>
        have active : (inner, there.offset) ∈ activeOf ((inner, there) :: chain) := by
          simp [← activeOf_cons]
        rw [readType_active (faithful.fresh _ List.mem_cons_self) active]
        exact ⟨rfl, faithful⟩
    -- Any other type: it is not among those being read, so it is read anew or remembered.
    next differs =>
      exact ih (within.next noMutual asks fun same =>
        differs ⟨congrArg Prod.fst same, congrArg Prod.snd same⟩)

theorem readType_refines (noMutual : NoMutualLeftRecursion registry.alternatives config text)
    (completing : Bool) {levels : Nat}
    (within : Within registry.alternatives config text chain (name, place))
    (enough : levelsFor registry text ≤ levels + chain.length) :
    Ensures (Faithful registry config text chain)
      (readType levels ⟨registry, config, completing, activeOf chain⟩ name place)
      fun readings =>
        readings.whole = firstTypeReadings (canonical registry config text name place) := by
  induction levels generalizing chain name place with
  | zero =>
    -- So many levels are never used up.
    have bound := within.length_le (fun _ => mem_typeNames)
    simp only [levelsFor, Registry.typeNames, List.length_map] at enough bound
    omega
  | succ levels ih =>
    intro progress faithful
    have inside : place.In text := within.inside _ List.mem_cons_self
    cases found : progress.known.lookup (name, place.offset) with
    | some known =>
      rw [readType_known found]
      exact ⟨faithful.entries _ (mem_of_lookup found) place inside rfl, faithful⟩
    | none =>
      -- While the alternatives are read, the type counts as being read, and afterwards as known.
      have inner := named_of_within noMutual completing levels within fun deeper =>
        ih deeper (by rw [List.length_cons]; omega)
      have read := readAlternatives_refines inner (registry.alternatives name) inside
        (fun chosen member pair asked => ⟨chosen, member, asked⟩) progress (faithful.enter found)
      obtain ⟨whole, kept⟩ := read
      rw [← canonical_unfold noMutual inside] at whole
      rw [← activeOf_cons] at whole kept
      rw [readType_new found (inactive_of_within within) rfl]
      exact ⟨whole, kept.leave within whole⟩

/-- With no type being read around them, alternatives are read as from an empty memory. -/
theorem readListed_refines (noMutual : NoMutualLeftRecursion registry.alternatives config text)
    (completing : Bool) (alternatives : List (Alternative ε κ)) {levels : Nat}
    (inside : place.In text) (enough : levelsFor registry text ≤ levels) :
    Ensures (Faithful registry config text [])
      (readAlternatives ⟨registry, config, completing, []⟩ (readType levels) alternatives place)
      fun readings => readings.whole =
        firstTypeReadings (oneOf config (canonical registry config text) alternatives place) := by
  have sound := canonical_sound registry config text
  have refines : NamedRefines registry.alternatives (Faithful registry config text [])
      ⟨registry, config, completing, []⟩ (readType levels) (canonical registry config text)
      fun pair => pair.2.In text :=
    ⟨sound, fun _ there => eq_nil_of_undefined sound there, fun _ _ inside =>
      readType_refines noMutual completing (.alone inside) enough⟩
  refine readAlternatives_refines refines alternatives inside fun _ _ pair asked => ?_
  obtain ⟨_, passes⟩ := asked.passes
  exact inside.passes passes

theorem readSentences_refines (noMutual : NoMutualLeftRecursion registry.alternatives config text)
    (completing : Bool) {levels : Nat} (inside : place.In text)
    (enough : levelsFor registry text ≤ levels) :
    Ensures (Faithful registry config text [])
      (readAlternatives ⟨registry, config, completing, []⟩ (readType levels) registry.sentences
        place)
      fun readings => readings.whole =
        firstTypeReadings
          (oneOf config (canonical registry config text) registry.sentences place) :=
  readListed_refines noMutual completing registry.sentences inside enough

theorem readScript_faithful (noMutual : NoMutualLeftRecursion registry.alternatives config text)
    (completing : Bool) : Ensures (Faithful registry config text [])
      (readScript ⟨registry, config, completing, []⟩ ⟨0, text⟩) fun _ => True := by
  refine (readScript_derives fun name place inside => ?_).weaken fun _ _ => trivial
  refine (readType_refines noMutual completing (.alone inside) (Nat.le_refl _)).weaken
    fun readings whole reading member => ?_
  rw [whole] at member
  exact canonical_sound registry config text _ _ _ ((keepNew_sublist _ _ _).subset member)

/-! ### Without left recursion -/

/-- The readings of a type that plain backtracking lists, everything included. -/
def naiveReadings (registry : Registry ε κ) (config : Config) (text : List Char) :
    String → Cursor → List (TypeReading ε κ) :=
  naive registry.alternatives config (levelsFor registry text)

/-- Without left recursion, the readings are all derivations. -/
theorem mem_oneOf_canonical_iff (acyclic : NoLeftRecursion registry.alternatives config text)
    (alternatives : List (Alternative ε κ)) (inside : place.In text) {reading : TypeReading ε κ} :
    reading ∈ oneOf config (canonical registry config text) alternatives place ↔
      DerivesOneOf registry.alternatives config alternatives place reading := by
  have unfolds : Unfolds registry.alternatives config text (naiveReadings registry config text) :=
    naive_unfolds acyclic (fun _ => mem_typeNames) (by simp [levelsFor, Registry.typeNames])
  have same : oneOf config (canonical registry config text) alternatives place =
      oneOf config (naiveReadings registry config text) alternatives place := by
    refine oneOf_congr (canonical_sound registry config text) fun chosen _ pair asked => ?_
    obtain ⟨_, passes⟩ := asked.passes
    exact (naive_eq_type acyclic _ _ (inside.passes passes)).symm
  rw [same]
  exact mem_iff_derives (naive_sound _) unfolds inside

end

end SentenceGrammar.Matching
