import SentenceGrammar.Proofs.ScriptAttempts

/-!
# What is noted has grounds

A search notes that something is expected only where an attempt lacks just that. At the furthest
failure, each expectation has such grounds, and none is listed twice. What is remembered is not noted
again, so nothing has to be known of the memory but that it is faithful.

## Main result

`scriptRun_grounded`: the grounds of all that is expected where a text cannot be read.
-/
namespace SentenceGrammar

variable {ε κ : Type}

/-- Some pattern of the grammar has the placeholder. -/
def Registry.HasPlaceholder (registry : Registry ε κ) (slot : Placeholder) : Prop :=
  ∃ chosen ∈ registry.allAlternatives, Item.placeholder slot ∈ chosen.pattern.items

namespace Matching

open Enumerate

variable {α β : Type}

/-! ### Grounds -/

/-- What an attempt expects at a place that it got to: what is left of its literal, or whatever its
placeholder stands for, which is no type of the grammar. -/
inductive Attempt.Expects (registry : Registry ε κ) (attempt : Attempt ε κ) (place : Cursor) :
    Expected → Prop where
  | literal {text : String} {word missing : List Char} (kind : attempt.kind = .literal text)
      (passes : attempt.start.Passes word place) (parts : text.toList = word ++ missing) :
      attempt.Expects registry place (.literal (String.ofList missing))
  | target {slot : Placeholder} (fills : attempt.slot = some slot)
      (terminal : ∀ type, slot.target ≠ .named type) (registered : registry.HasPlaceholder slot) :
      attempt.Expects registry place slot.target.expected

/-- What is expected has grounds that depend on the offset, and nothing is expected twice. -/
structure Failure.Grounded (grounds : Nat → Expected → Prop) (failure : Failure) : Prop where
  distinct : failure.expected.Nodup
  each : ∀ expected ∈ failure.expected, grounds failure.place.offset expected

/-- All that the attempt notes has grounds. -/
def Attempt.Grounded (registry : Registry ε κ) (grounds : Nat → Expected → Prop)
    (attempt : Attempt ε κ) : Prop :=
  ∀ place expected, attempt.noted = some place → attempt.Expects registry place expected →
    grounds place.offset expected

variable {grounds : Nat → Expected → Prop}

theorem Failure.Grounded.note {failure : Failure} (grounded : failure.Grounded grounds)
    {context : List String} {place : Cursor} {expected : Expected}
    (ground : grounds place.offset expected) :
    (failure.note context place expected).Grounded grounds := by
  rw [Failure.note]
  split
  next => exact ⟨List.nodup_singleton _, by simpa using ground⟩
  next =>
    split
    next here =>
      refine ⟨?_, fun other listed => ?_⟩
      · exact grounded.distinct.append (List.nodup_singleton _) (by simpa using here.2)
      · rcases List.mem_append.mp listed with before | added
        · exact grounded.each other before
        · obtain rfl := List.mem_singleton.mp added
          exact here.1 ▸ ground
    next => exact grounded

/-- The search keeps an invariant of what is remembered, and whatever it notes has grounds. -/
def Grounds (kept : Known ε κ → Prop) (grounds : Nat → Expected → Prop) (search : Search ε κ α)
    (post : α → Prop) : Prop :=
  ∀ progress, kept progress.known → progress.failure.Grounded grounds →
    post (search.run progress).1 ∧ kept (search.run progress).2.known ∧
      (search.run progress).2.failure.Grounded grounds

namespace Grounds

variable {kept : Known ε κ → Prop} {post : β → Prop}

theorem pure {result : β} (holds : post result) : Grounds kept grounds (Pure.pure result) post :=
  fun _ invariant grounded => ⟨holds, invariant, grounded⟩

theorem bind {search : Search ε κ α} {next : α → Search ε κ β} {middle : α → Prop}
    (first : Grounds kept grounds search middle)
    (further : ∀ a, middle a → Grounds kept grounds (next a) post) :
    Grounds kept grounds (search >>= next) post := by
  intro progress invariant grounded
  obtain ⟨reached, held, noted⟩ := first progress invariant grounded
  exact further _ reached _ held noted

/-- What the search ensures anyway may be assumed of its result. -/
theorem ensuring {search : Search ε κ β} {strong : β → Prop}
    (first : Grounds kept grounds search post) (ensured : Ensures kept search strong) :
    Grounds kept grounds search strong := by
  intro progress invariant grounded
  exact ⟨(ensured progress invariant).1, (first progress invariant grounded).2⟩

theorem expect {scope : Scope ε κ} {place : Cursor} {expected : Expected}
    (ground : grounds place.offset expected) :
    Grounds kept grounds (expect scope place expected) fun _ => True :=
  fun _ invariant grounded => ⟨trivial, invariant, grounded.note ground⟩

theorem perhapsExpect {condition : Prop} [Decidable condition] {scope : Scope ε κ} {place : Cursor}
    {expected : Expected} {next : Unit → Search ε κ β}
    (ground : condition → grounds place.offset expected)
    (further : ∀ noted, Grounds kept grounds (next noted) post) :
    Grounds kept grounds
      (if condition then Matching.expect scope place expected >>= next else next ()) post := by
  split
  next holds => exact (expect (ground holds)).bind fun noted _ => further noted
  next => exact further ()

theorem forM {list : List α} {search : α → Search ε κ Unit}
    (each : ∀ a ∈ list, Grounds kept grounds (search a) fun _ => True) :
    Grounds kept grounds (list.forM search) fun _ => True := by
  induction list with
  | nil => exact pure trivial
  | cons a rest ih =>
    exact (each a List.mem_cons_self).bind fun _ _ =>
      ih fun b member => each b (List.mem_cons_of_mem _ member)

theorem mapM {list : List α} {search : α → Search ε κ β} (post : α → β → Prop)
    (each : ∀ a ∈ list, Grounds kept grounds (search a) (post a)) :
    Grounds kept grounds (list.mapM search) (List.Forall₂ post list) := by
  induction list with
  | nil => exact pure .nil
  | cons a rest ih =>
    rw [List.mapM_cons]
    refine (each a List.mem_cons_self).bind fun b first => ?_
    refine (ih fun c member => each c (List.mem_cons_of_mem _ member)).bind fun others related => ?_
    exact pure (.cons first related)

end Grounds

/-- The same for a search with a state of its own, whatever that is. -/
def GroundsWith {ρ : Type} (kept : Known ε κ → Prop) (grounds : Nat → Expected → Prop)
    (search : StateT ρ (Search ε κ) α) (post : α → Prop) : Prop :=
  ∀ state, Grounds kept grounds (search.run state) fun result => post result.1

namespace GroundsWith

variable {ρ : Type} {kept : Known ε κ → Prop} {post : β → Prop}

theorem pure {result : β} (holds : post result) :
    GroundsWith kept grounds (Pure.pure result : StateT ρ (Search ε κ) β) post :=
  fun _ => Grounds.pure holds

theorem bind {search : StateT ρ (Search ε κ) α} {next : α → StateT ρ (Search ε κ) β}
    {middle : α → Prop} (first : GroundsWith kept grounds search middle)
    (further : ∀ a, middle a → GroundsWith kept grounds (next a) post) :
    GroundsWith kept grounds (search >>= next) post := by
  intro state
  rw [StateT.run_bind]
  exact (first state).bind fun result reached => further _ reached _

theorem lift {search : Search ε κ β} (grounded : Grounds kept grounds search post) :
    GroundsWith kept grounds (StateT.lift search : StateT ρ (Search ε κ) β) post :=
  fun _ => grounded.bind fun _ result => Grounds.pure result

theorem get : GroundsWith kept grounds (MonadState.get : StateT ρ (Search ε κ) ρ) fun _ => True :=
  fun _ => Grounds.pure trivial

theorem modify (change : ρ → ρ) :
    GroundsWith kept grounds (modify change : StateT ρ (Search ε κ) PUnit) fun _ => True :=
  fun _ => Grounds.pure trivial

theorem mapM {list : List α} {search : α → StateT ρ (Search ε κ) β}
    (each : ∀ a ∈ list, GroundsWith kept grounds (search a) fun _ => True) :
    GroundsWith kept grounds (list.mapM search) fun _ => True := by
  induction list with
  | nil => exact pure trivial
  | cons a rest ih =>
    rw [List.mapM_cons]
    refine (each a List.mem_cons_self).bind fun b _ => ?_
    refine (ih fun c member => each c (List.mem_cons_of_mem _ member)).bind fun others _ => ?_
    exact pure trivial

end GroundsWith

/-! ### Terminals -/

section

variable {kept : Known ε κ → Prop} {scope : Scope ε κ} {start : Cursor} {slot : Placeholder}

theorem readLiteral_grounds {text : String}
    (attempt : (literalAttempt (ε := ε) (κ := κ) text start).Grounded scope.registry grounds) :
    Grounds kept grounds (readLiteral scope text start) fun _ => True := by
  have expects {place : Cursor} {word missing : List Char} (passes : start.Passes word place)
      (parts : text.toList = word ++ missing) :
      (literalAttempt (ε := ε) (κ := κ) text start).Expects scope.registry place
        (.literal (String.ofList missing)) :=
    .literal (literalAttempt_kind text start) ((literalAttempt_start text start).symm ▸ passes) parts
  rw [readLiteral]
  cases scanned : scanLiteral text.toList start with
  | whole stop => exact .pure trivial
  | ended missing =>
    have ground := attempt start.finish _ (by simp [literalAttempt, scanned])
      (expects start.passes_finish (scanLiteral_ended scanned).2)
    exact (Grounds.expect ground).bind fun _ _ => .pure trivial
  | differs place missing =>
    obtain ⟨-, word, passes, parts⟩ := scanLiteral_differs scanned
    have ground := attempt place _ (by simp [literalAttempt, scanned]) (expects passes parts)
    exact (Grounds.expect ground).bind fun _ _ => .pure trivial

theorem readRun_grounds {accepts : Char → Bool} {kind : NodeKind ε κ}
    (single : slot.target.single? = some accepts)
    (registered : scope.registry.HasPlaceholder slot)
    (attempt : (runAttempt (ε := ε) (κ := κ) slot accepts start).Grounded scope.registry grounds) :
    Grounds kept grounds (readRun scope slot accepts slot.target.expected kind start)
      fun _ => True := by
  have terminal type (target : slot.target = .named type) : False := by
    simp [target, Target.single?] at single
  rw [readRun]
  cases scanned : scanRun slot.quantifier accepts [] 0 start.offset start.rest with
  | mk scan extendable =>
    dsimp only
    refine .perhapsExpect (fun further => ?_) fun _ => .pure trivial
    exact attempt scan.reached _ (by simp [runAttempt, scanned, further])
      (.target rfl terminal registered)

theorem readNumber_grounds {type : Builtin} (target : slot.target = .builtin type)
    (registered : scope.registry.HasPlaceholder slot)
    (attempt : (numberAttempt (ε := ε) (κ := κ) slot type start).Grounded scope.registry grounds) :
    Grounds kept grounds (readNumber scope slot type start) fun _ => True := by
  have expected : slot.target.expected = .builtin type := by rw [target, Target.expected]
  rw [readNumber]
  dsimp only
  refine .perhapsExpect (fun further => ?_) fun _ => .pure trivial
  rw [← expected]
  exact attempt _ _ (if_pos further) (.target rfl (by simp [target]) registered)

end

/-! ### Units and repetitions -/

section

variable {kept : Known ε κ → Prop} {scope : Scope ε κ} {start : Cursor} {slot : Placeholder}
  {ask : String → Cursor → List (TypeReading ε κ)} {named : TypeReader ε κ} {context : Context}
  {asked : String × Cursor → Prop} {text : List Char}

variable (kept grounds scope ask named context asked) in
/-- Wherever a type may be asked for, `named` notes nothing but what the attempts at it note. -/
def NamedGrounds : Prop :=
  ∀ name place, asked (name, place) →
    (∀ attempt, context ≠ some (name, place) →
      TriesType scope.registry.alternatives scope.config ask name place attempt →
        attempt.Grounded scope.registry grounds) →
      Grounds kept grounds (named scope name place) fun _ => True

variable (defined : scope.registry.undefinedReferences = [])
  (refines : NamedRefines scope.registry.alternatives kept scope named (within context ask) asked)
  (namedGrounds : NamedGrounds grounds kept scope ask named context asked)

include defined namedGrounds

theorem readUnit_grounds (registered : scope.registry.HasPlaceholder slot)
    (several : slot.target.single? = none)
    (asks : ∀ name, slot.target = .named name → asked (name, start))
    (attempts : ∀ attempt,
      TriesUnit scope.registry.alternatives scope.config ask context slot start attempt →
        attempt.Grounded scope.registry grounds) :
    Grounds kept grounds (readUnit scope named slot start) fun _ => True := by
  rw [readUnit]
  cases target : slot.target with
  | charClass set => simp [target, Target.single?] at several
  | builtin type =>
    exact readNumber_grounds target registered (attempts _ (.number start target))
  | named type =>
    obtain ⟨chosen, listed, member⟩ := registered
    have known := refers_of_mem defined listed member type target
    dsimp only
    rw [readNamed, if_pos known]
    refine (namedGrounds type start (asks type target) fun attempt other tries => ?_).bind
      fun _ _ => .pure trivial
    exact attempts attempt (.type target other tries)

omit defined namedGrounds in
theorem readSeparator_grounds {count : Nat}
    (attempts : ∀ text, count ≠ 0 → scope.config.repetition.separator? = some text →
      (literalAttempt (ε := ε) (κ := κ) text start).Grounded scope.registry grounds) :
    Grounds kept grounds (readSeparator scope count start) fun _ => True := by
  rw [readSeparator]
  cases separator : scope.config.repetition.separator? with
  | none => exact .pure trivial
  | some text =>
    dsimp only
    split
    next => exact .pure trivial
    next further =>
      exact (readLiteral_grounds (attempts text further separator)).bind fun _ _ => .pure trivial

include refines

/-- A repetition only returns what it remembers, and so notes what its units note. -/
theorem readRepeated_grounds (registered : scope.registry.HasPlaceholder slot)
    (several : slot.target.single? = none) {steps done real : Nat}
    (counts : slot.quantifier.Counts real done)
    (reached : UnitsAsked scope.registry.alternatives text scope.config asked slot real start)
    (attempts : ∀ attempt,
      TriesUnits scope.registry.alternatives scope.config ask context slot real start attempt →
        attempt.Grounded scope.registry grounds) :
    GroundsWith kept grounds (readRepeated scope (readUnit scope named slot) slot.quantifier steps
      done start) fun _ => True := by
  induction steps generalizing done start real with
  | zero => exact .pure trivial
  | succ steps ih =>
    rw [readRepeated]
    refine GroundsWith.get.bind fun known _ => ?_
    split
    next => exact .pure trivial
    next =>
      extract_lets here finish
      have finished (further : Chains ε κ) :
          GroundsWith kept grounds (finish further) fun _ => True :=
        (GroundsWith.modify _).bind fun _ _ => .pure trivial
      simp only [pure_bind]
      split
      case isFalse => exact finished _
      case isTrue more =>
        have allows : slot.quantifier.allowsMore real = true := allowsMore_of_counts counts ▸ more
        have separators : Grounds kept grounds (readSeparator scope done start) fun _ => True :=
          readSeparator_grounds fun text further separator => attempts _
            (.separator start allows (mt (zero_iff_of_counts counts).mpr further) separator)
        refine (GroundsWith.lift (separators.ensuring (readSeparator_openings done))).bind
          fun opening opened => ?_
        rw [openings_of_counts _ counts] at opened
        split
        next => exact finished _
        next first others whole =>
          -- A unit begins behind the opening, and the repetition goes on behind each of its readings.
          have begins : first ∈ openings scope.config real start :=
            opened ▸ whole ▸ List.mem_cons_self
          have separator := mem_openings.mp begins
          have asks name (target : slot.target = .named name) : asked (name, first.stop) :=
            reached.2 name _ target (.here allows separator)
          have unit := readUnit_grounds defined namedGrounds registered several asks
            fun attempt tries => attempts attempt (.here allows begins tries)
          refine (GroundsWith.lift (unit.ensuring (readUnit_refines refines several asks))).bind
            fun units read => (GroundsWith.mapM fun found member => ?_).bind fun _ _ => finished _
          rw [read] at member
          have listed := (keepNew_sublist _ _ _).subset member
          have derived := derives_of_mem_unit refines.sound listed
          split
          next => exact .pure trivial
          next moves =>
            have shorter := (moved_iff separator derived).mpr moves
            refine (ih (counts_next counts more) (reached.next allows separator derived moves)
              fun attempt tries => ?_).bind fun _ _ => .pure trivial
            exact attempts attempt (.later allows begins listed shorter tries)

/-! ### Items and alternatives -/

theorem readItem_grounds {item : Item} {rest : List Item} (inside : start.In text)
    (asks : ∀ pair, ItemsAsk scope.registry.alternatives scope.config (item :: rest) start pair →
      asked pair)
    (registered : ∀ slot, item = .placeholder slot → scope.registry.HasPlaceholder slot)
    (attempts : ∀ attempt,
      TriesItem scope.registry.alternatives scope.config ask context item start attempt →
        attempt.Grounded scope.registry grounds) :
    Grounds kept grounds (readItem scope named item start) fun _ => True := by
  cases item with
  | literal literal span => exact readLiteral_grounds (attempts _ (.literal start))
  | placeholder slot =>
    have known := registered slot rfl
    rw [readItem]
    cases single : slot.target.single? with
    | some accepts =>
      rw [readPlaceholder_run scope named start single]
      exact readRun_grounds single known (attempts _ (.run start single))
    | none =>
      rw [readPlaceholder_several single]
      split
      next one =>
        have more : slot.quantifier.allowsMore 0 = true := by
          simp [one, Quantifier.one, Quantifier.allowsMore]
        exact readUnit_grounds defined namedGrounds known single
          (fun name target => asks (name, start) (.here target (.here more (.first _))))
          fun attempt tries => attempts attempt (.single single one tries)
      next several =>
        have reached : UnitsAsked scope.registry.alternatives text scope.config asked slot 0 start :=
          ⟨inside, fun name place target unit => asks (name, place) (.here target unit)⟩
        refine (readRepeated_grounds defined refines namedGrounds known single (counts_zero _) reached
          (fun attempt tries => ?_) []).bind fun _ _ => .pure trivial
        exact attempts attempt (.repetition single several tries)

theorem readItems_grounds (list : List Item) {chains : List (Chain ε κ)}
    (inside : ∀ chain ∈ chains, chain.stop.In text)
    (asks : ∀ chain ∈ chains, ∀ pair,
      ItemsAsk scope.registry.alternatives scope.config list chain.stop pair → asked pair)
    (registered : ∀ slot, Item.placeholder slot ∈ list → scope.registry.HasPlaceholder slot)
    (attempts : ∀ chain ∈ chains, ∀ attempt,
      TriesItems scope.registry.alternatives scope.config ask context list chain.stop attempt →
        attempt.Grounded scope.registry grounds) :
    Grounds kept grounds (readItems scope named list chains) fun _ => True := by
  induction list generalizing chains with
  | nil => exact .pure trivial
  | cons item rest ih =>
    rw [readItems]
    refine (Grounds.mapM (fun chain found => found.1 = chain ∧ found.2.whole =
        firstReadings (Enumerate.item scope.config (within context ask) item chain.stop))
      fun chain member => ?each).bind fun found related => ?behind
    case each =>
      have here := inside chain member
      refine ((readItem_grounds defined refines namedGrounds here (asks chain member)
        (fun slot same => registered slot (same ▸ List.mem_cons_self)) fun attempt tries => ?_).ensuring
          (readItem_refines refines here (asks chain member))).bind fun _ whole => .pure ⟨rfl, whole⟩
      exact attempts chain member attempt (.here tries)
    case behind =>
      -- Only one chain for each place goes on, and that place is behind some reading of the item.
      rw [firstPerStop_found related]
      have reached chain (member : chain ∈ firstPerStop (chains.flatMap
          (behindItem scope.config (within context ask) item))) :
          ∃ before ∈ chains, ∃ found ∈ Enumerate.item scope.config (within context ask) item
            before.stop, chain.stop = found.stop := by
        obtain ⟨before, earlier, listed⟩ :=
          List.mem_flatMap.mp ((keepNew_sublist _ _ _).subset member)
        obtain ⟨reading, read, rfl⟩ := List.mem_map.mp listed
        exact ⟨before, earlier, reading, read, rfl⟩
      refine (ih (fun chain member => ?_) (fun chain member pair later => ?_)
        (fun slot member => registered slot (List.mem_cons_of_mem _ member))
        fun chain member attempt tries => ?_).bind fun _ _ => .pure trivial
      all_goals obtain ⟨before, earlier, reading, read, same⟩ := reached chain member
      · obtain ⟨_, passes⟩ := (derives_of_mem_item refines.sound read).passes
        exact same ▸ (inside before earlier).passes passes
      · have derived := derives_of_mem_item refines.sound read
        exact asks before earlier pair (.later derived (same ▸ later))
      · exact attempts before earlier attempt (.later read (same ▸ tries))

theorem readAlternatives_grounds (alternatives : List (Alternative ε κ)) (inside : start.In text)
    (asks : ∀ chosen ∈ alternatives, ∀ pair, ItemsAsk scope.registry.alternatives scope.config
      chosen.pattern.items start pair → asked pair)
    (registered : ∀ chosen ∈ alternatives, chosen ∈ scope.registry.allAlternatives)
    (attempts : ∀ chosen ∈ alternatives, ∀ attempt,
      TriesItems scope.registry.alternatives scope.config ask context chosen.pattern.items start
        attempt → attempt.Grounded scope.registry grounds) :
    Grounds kept grounds (readAlternatives scope named alternatives start) fun _ => True := by
  rw [readAlternatives]
  refine (Grounds.mapM (fun _ _ => True) fun chosen member => ?_).bind fun _ _ => .pure trivial
  refine (readItems_grounds defined refines namedGrounds chosen.pattern.items (by simpa using inside)
    (by simpa using asks chosen member) (fun slot listed => ?_) ?_).bind fun _ _ => .pure trivial
  · exact ⟨chosen, registered chosen member, listed⟩
  · simpa using attempts chosen member

end

/-! ### Types and sentences -/

section

variable {registry : Registry ε κ} {config : Config} {text : List Char} {completing : Bool}
  {chain : List (String × Cursor)} {name : String} {place : Cursor}
  (defined : registry.undefinedReferences = [])
  (noMutual : NoMutualLeftRecursion registry.alternatives config text)

include defined noMutual

theorem readType_grounds {levels : Nat}
    (within : Within registry.alternatives config text chain (name, place))
    (enough : levelsFor registry text ≤ levels + chain.length)
    (attempts : ∀ attempt, TypeTries registry config text name place attempt →
      attempt.Grounded registry grounds) :
    Grounds (Faithful registry config text chain) grounds
      (readType levels ⟨registry, config, completing, activeOf chain⟩ name place)
      fun _ => True := by
  induction levels generalizing chain name place with
  | zero => exact .pure trivial
  | succ levels ih =>
    intro progress faithful grounded
    have inside : place.In text := within.inside _ List.mem_cons_self
    cases found : progress.known.lookup (name, place.offset) with
    | some known =>
      rw [readType_known found]
      exact ⟨trivial, faithful, grounded⟩
    | none =>
      have refines := named_of_within noMutual completing levels within fun deeper =>
        readType_refines noMutual completing deeper (by rw [List.length_cons]; omega)
      -- The type that is being read itself is cut, and any other one is read within it.
      have inner : NamedGrounds grounds (Faithful registry config text ((name, place) :: chain))
          ⟨registry, config, completing, activeOf ((name, place) :: chain)⟩
          (canonical registry config text) (readType levels) (some (name, place))
          (Asks registry.alternatives config (name, place)) := by
        intro other there asks attempts
        by_cases same : (other, there) = (name, place)
        · obtain ⟨rfl, rfl⟩ := Prod.mk.inj same
          intro progress faithful grounded
          cases levels with
          | zero => exact ⟨trivial, faithful, grounded⟩
          | succ levels =>
            have active : (other, there.offset) ∈ activeOf ((other, there) :: chain) := by
              simp [← activeOf_cons]
            rw [readType_active (faithful.fresh _ List.mem_cons_self) active]
            exact ⟨trivial, faithful, grounded⟩
        · exact ih (within.next noMutual asks same) (by rw [List.length_cons]; omega)
            fun attempt => attempts attempt fun equal => same (Option.some.inj equal).symm
      have asks chosen (member : chosen ∈ registry.alternatives name) pair
          (asked : ItemsAsk registry.alternatives config chosen.pattern.items place pair) :
          Asks registry.alternatives config (name, place) pair := ⟨chosen, member, asked⟩
      obtain ⟨whole, faithful', grounded'⟩ :=
        ((readAlternatives_grounds defined refines inner (registry.alternatives name) inside asks
          (fun _ member => alternatives_subset registry name member) fun chosen member attempt tries =>
            attempts attempt (.alternative member tries)).ensuring (readAlternatives_refines refines
              (registry.alternatives name) inside asks)) progress (faithful.enter found) grounded
      rw [← canonical_unfold noMutual inside] at whole
      rw [← activeOf_cons] at whole faithful' grounded'
      rw [readType_new found (inactive_of_within within) rfl]
      exact ⟨trivial, faithful'.leave within whole, grounded'⟩

theorem readSentences_grounds {levels : Nat} (inside : place.In text)
    (enough : levelsFor registry text ≤ levels)
    (attempts : ∀ attempt, SentenceTries registry config text place attempt →
      attempt.Grounded registry grounds) :
    Grounds (Faithful registry config text []) grounds
      (readAlternatives ⟨registry, config, completing, []⟩ (readType levels) registry.sentences
        place) fun _ => True := by
  have sound := canonical_sound registry config text
  have refines : NamedRefines registry.alternatives (Faithful registry config text [])
      ⟨registry, config, completing, []⟩ (readType levels)
      (Matching.within none (canonical registry config text)) fun pair => pair.2.In text :=
    ⟨sound, fun _ there => eq_nil_of_undefined sound there, fun _ _ inside =>
      readType_refines noMutual completing (.alone inside) enough⟩
  have named : NamedGrounds grounds (Faithful registry config text [])
      ⟨registry, config, completing, []⟩ (canonical registry config text) (readType levels) none
      fun pair => pair.2.In text := fun name there inside attempts =>
    readType_grounds defined noMutual (.alone inside) enough fun attempt =>
      attempts attempt (by simp)
  refine readAlternatives_grounds defined refines named registry.sentences inside
    (fun chosen _ pair asked => ?_) (fun chosen member => List.mem_append_right _ member)
    fun chosen member attempt tries => attempts attempt ⟨chosen, member, tries⟩
  obtain ⟨_, passes⟩ := asked.passes
  exact inside.passes passes

end

/-! ### Scripts -/

variable (registry : Registry ε κ) (config : Config) (text : List Char) in
/-- Why something is expected at an offset of a text. -/
inductive ScriptGrounds (offset : Nat) : Expected → Prop where
  | attempt {count : Nat} {place reached : Cursor} {attempt : Attempt ε κ} {expected : Expected}
      (reads : Reads registry config text count place)
      (tries : SentenceTries registry config text place attempt)
      (noted : attempt.noted = some reached) (here : reached.offset = offset)
      (expects : attempt.Expects registry reached expected) : ScriptGrounds offset expected
  /-- A sentence ended there, with no white space behind it. -/
  | sentenceBreak {count : Nat} {place : Cursor}
      (visited : (place, false) ∈ canonicalVisits registry config text count)
      (allowed : config.severalSentences = false → count ≤ 1) (here : place.offset = offset) :
      ScriptGrounds offset .sentenceBreak
  /-- The script could end there. -/
  | endOfInput {count : Nat} {visit : Visit}
      (visited : visit ∈ canonicalVisits registry config text count)
      (allowed : config.severalSentences = false → count ≤ 1) (here : visit.1.offset = offset) :
      ScriptGrounds offset .endOfInput

section

variable {registry : Registry ε κ} {config : Config} {text : List Char} {completing : Bool}
  {levels left count : Nat} {first : Bool}
  (defined : registry.undefinedReferences = [])
  (noMutual : NoMutualLeftRecursion registry.alternatives config text)

include defined noMutual

theorem advance_grounds (enough : levelsFor registry text ≤ levels) {step : Step ε κ}
    (visited : step.visit ∈ canonicalVisits registry config text count)
    (allowed : config.severalSentences = false → count = 0) :
    Grounds (Faithful registry config text []) (ScriptGrounds registry config text)
      (advance ⟨registry, config, completing, []⟩ (readType levels) first step)
      fun found => found.1 = step.further registry config text := by
  have inside : step.stop.In text := canonicalVisits_inside visited
  have bound (single : config.severalSentences = false) : count ≤ 1 := by simp [allowed single]
  rw [advance]
  dsimp only
  split
  next separated =>
    have reads : Reads registry config text count step.stop := by
      rw [Step.visit, separated] at visited
      exact ⟨visited, allowed⟩
    refine .perhapsExpect (fun _ => .endOfInput visited bound rfl) fun _ => ?_
    refine ((readSentences_grounds defined noMutual inside enough fun attempt tries place expected
      noted expects => .attempt reads tries noted rfl expects).ensuring
        (readSentences_refines noMutual completing inside enough)).bind fun readings whole => .pure ?_
    rw [Step.further, if_pos separated, whole]
  next closed =>
    have closed : step.separated = false := Bool.eq_false_iff.mpr closed
    rw [Step.visit, closed] at visited
    refine .perhapsExpect (fun _ => .sentenceBreak visited bound rfl) fun _ => .pure ?_
    rw [Step.further, if_neg (by simp [closed])]

theorem rounds_grounds (enough : levelsFor registry text ≤ levels)
    (initial : first = true ↔ count = 0) (bound : config.severalSentences = false → count ≤ 1)
    {frontier : List (Step ε κ)} {readings : ScriptReadings ε κ}
    (same : frontier.map Step.visit = canonicalVisits registry config text count) :
    Grounds (Faithful registry config text []) (ScriptGrounds registry config text)
      (rounds ⟨registry, config, completing, []⟩ (readType levels) left first
        (canonicalLayer registry config text count).seen frontier readings) fun _ => True := by
  induction left generalizing count first frontier readings with
  | zero => exact .pure trivial
  | succ left ih =>
    unfold rounds
    extract_lets whole finish
    have visited step (member : step ∈ frontier) :
        step.visit ∈ canonicalVisits registry config text count :=
      (mem_visits same).mpr ⟨step, member, rfl⟩
    split
    next => exact .pure trivial
    next =>
      split
      next =>
        split
        next =>
          refine (Grounds.forM fun step member => ?_).bind fun _ _ => .pure trivial
          exact .expect (.endOfInput (visited step member) bound rfl)
        next => exact .pure trivial
      next on =>
        have goesOn := Decidable.not_not.mp (not_or.mp on).2
        have allowed (single : config.severalSentences = false) : count = 0 :=
          initial.mp (goesOn.resolve_right (by simp [single]))
        -- The steps lead to the next places that are visited, which keeps the frontier canonical.
        refine (Grounds.mapM (fun step found => found.1 = step.further registry config text)
          fun step member => advance_grounds defined noMutual enough (visited step member)
            allowed).bind fun found related => ?_
        obtain ⟨visits, seen⟩ := canonical_next same related
        dsimp only
        rw [seen]
        exact ih (by simp) (fun single => by simp [allowed single]) visits

/-- All that is expected where a text cannot be read is so for a reason, and nothing twice. -/
theorem scriptRun_grounded (completing : Bool) :
    (scriptRun registry config completing text).2.failure.Grounded
      (ScriptGrounds registry config text) := by
  have grounds : Grounds (Faithful registry config text []) (ScriptGrounds registry config text)
      (rounds ⟨registry, config, completing, []⟩ (readType (levelsFor registry text))
        (Text.byteSize text + 2) true (canonicalLayer registry config text 0).seen
        [firstStep ε κ text] {}) fun _ => True :=
    rounds_grounds defined noMutual (Nat.le_refl _) (by simp) (by simp) rfl
  have initial : (Progress.start text : Progress ε κ).failure.Grounded
      (ScriptGrounds registry config text) := ⟨List.nodup_nil, by simp [Progress.start]⟩
  exact (grounds (.start text) (faithful_nil registry config text) initial).2.2

end

end Matching
end SentenceGrammar
