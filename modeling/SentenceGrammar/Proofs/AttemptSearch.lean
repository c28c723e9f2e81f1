import SentenceGrammar.Proofs.Attempts
import SentenceGrammar.Proofs.CutOffs

/-!
# Searches make all attempts

Unless two types recur in each other at one place, a search makes just the attempts that there are:
it notes what they note, and a search for completions keeps those that the end of the text cuts off.
What is dropped on the way, because something else stops at the same place, and what is remembered
makes no difference, since the attempts behind a reading depend only on where it stops.
-/
namespace SentenceGrammar.Matching

open Enumerate
open Node (openLeaf?)

variable {ε κ α β : Type}

/-! ### What attempts come to -/

/-- What the attempts come to when the furthest failure is at an offset: it is not in front of
anything that they note, and what is cut off are those that ended, if completions are wanted. -/
structure Tried (completing : Bool) (offset : Nat) (tries : Attempt ε κ → Prop)
    (cut : List (List (Node ε κ))) : Prop where
  noted : ∀ attempt, tries attempt → ∀ place, attempt.noted = some place → place.offset ≤ offset
  made : ∀ nodes ∈ cut, ∃ attempt, tries attempt ∧ attempt.ended = true ∧
    openLeaf? nodes = some attempt.leaf
  kept : completing = true → ∀ attempt, tries attempt → attempt.ended = true →
    ∃ nodes ∈ cut, openLeaf? nodes = some attempt.leaf

namespace Tried

variable {completing : Bool} {offset later : Nat} {tries tries' : Attempt ε κ → Prop}
  {cut cut' : List (List (Node ε κ))}

theorem nil (none : ∀ attempt, ¬tries attempt) : Tried completing offset tries [] :=
  ⟨fun attempt tried => absurd tried (none attempt), by simp,
    fun _ attempt tried => absurd tried (none attempt)⟩

theorem mono (tried : Tried completing offset tries cut) (further : offset ≤ later) :
    Tried completing later tries cut :=
  ⟨fun attempt tries place noted => (tried.noted attempt tries place noted).trans further,
    tried.made, tried.kept⟩

theorem congr (tried : Tried completing offset tries cut)
    (same : ∀ attempt, tries attempt ↔ tries' attempt) : Tried completing offset tries' cut := by
  have equal : tries = tries' := funext fun attempt => propext (same attempt)
  exact equal ▸ tried

theorem append (tried : Tried completing offset tries cut)
    (tried' : Tried completing offset tries' cut') :
    Tried completing offset (fun attempt => tries attempt ∨ tries' attempt) (cut ++ cut') where
  noted attempt either := either.elim (tried.noted attempt) (tried'.noted attempt)
  made nodes member := by
    rcases List.mem_append.mp member with first | second
    · obtain ⟨attempt, tries, shown⟩ := tried.made nodes first
      exact ⟨attempt, .inl tries, shown⟩
    · obtain ⟨attempt, tries, shown⟩ := tried'.made nodes second
      exact ⟨attempt, .inr tries, shown⟩
  kept wanted attempt either ended := by
    rcases either with first | second
    · obtain ⟨nodes, member, leaf⟩ := tried.kept wanted attempt first ended
      exact ⟨nodes, List.mem_append_left _ member, leaf⟩
    · obtain ⟨nodes, member, leaf⟩ := tried'.kept wanted attempt second ended
      exact ⟨nodes, List.mem_append_right _ member, leaf⟩

/-- What stands in front of or around what is cut off does not matter. -/
theorem map {list : List α} {inner outer : α → List (Node ε κ)}
    (tried : Tried completing offset tries (list.map inner))
    (leaf : ∀ a last, openLeaf? (inner a) = some last → openLeaf? (outer a) = some last) :
    Tried completing offset tries (list.map outer) where
  noted := tried.noted
  made nodes member := by
    obtain ⟨a, listed, rfl⟩ := List.mem_map.mp member
    obtain ⟨attempt, tries, ended, last⟩ := tried.made _ (List.mem_map_of_mem listed)
    exact ⟨attempt, tries, ended, leaf _ _ last⟩
  kept wanted attempt tries ended := by
    obtain ⟨nodes, member, last⟩ := tried.kept wanted attempt tries ended
    obtain ⟨a, listed, rfl⟩ := List.mem_map.mp member
    exact ⟨outer a, List.mem_map_of_mem listed, leaf _ _ last⟩

theorem flatMap {tries : α → Attempt ε κ → Prop} {list : List α} {results : List β}
    {cut : β → List (List (Node ε κ))}
    (tried : List.Forall₂ (fun a b => Tried completing offset (tries a) (cut b)) list results) :
    Tried completing offset (fun attempt => ∃ a ∈ list, tries a attempt) (results.flatMap cut) := by
  induction tried with
  | nil => exact .nil (by simp)
  | cons first _ ih =>
    rw [List.flatMap_cons]
    exact (first.append ih).congr fun attempt => by simp

end Tried

/-! ### Assertions about attempts -/

/-- The place of a failure counts only when something is noted there. -/
def Failure.Fresh (failure : Failure) : Prop := failure.expected = [] → failure.place.offset = 0

theorem Failure.note_fresh {failure : Failure} {context : List String} {place : Cursor}
    {expected : Expected} : (failure.note context place expected).Fresh :=
  fun nothing => absurd nothing note_expected

/-- A note is never behind the furthest failure, and no note makes it less far. -/
theorem Failure.note_further {failure : Failure} (fresh : failure.Fresh) (context : List String)
    (place : Cursor) (expected : Expected) :
    failure.place.offset ≤ (failure.note context place expected).place.offset ∧
      place.offset ≤ (failure.note context place expected).place.offset := by
  rw [note]
  split
  next further =>
    rcases further with less | nothing
    · exact ⟨Nat.le_of_lt less, Nat.le_refl _⟩
    · exact ⟨fresh nothing ▸ Nat.zero_le _, Nat.le_refl _⟩
  next further =>
    have behind := Nat.le_of_not_lt (not_or.mp further).1
    split <;> exact ⟨Nat.le_refl _, behind⟩

/-- The search keeps an invariant of the offset of the furthest failure and of what is remembered.
If that offset was at least so large, it is not smaller afterwards, and the result satisfies an
assertion that depends on it. -/
def Attains (kept : Nat → Known ε κ → Prop) (least : Nat) (search : Search ε κ α)
    (post : α → Nat → Prop) : Prop :=
  ∀ progress, progress.failure.Fresh → least ≤ progress.failure.place.offset →
    kept progress.failure.place.offset progress.known →
      let after := (search.run progress).2
      after.failure.Fresh ∧ progress.failure.place.offset ≤ after.failure.place.offset ∧
        kept after.failure.place.offset after.known ∧
          post (search.run progress).1 after.failure.place.offset

/-- An invariant that a further failure does not break. -/
def Grows (kept : Nat → Known ε κ → Prop) : Prop :=
  ∀ offset later known, offset ≤ later → kept offset known → kept later known

namespace Attains

variable {kept : Nat → Known ε κ → Prop} {least : Nat} {post : β → Nat → Prop}

theorem pure {result : β} (holds : ∀ offset, least ≤ offset → post result offset) :
    Attains kept least (Pure.pure result) post :=
  fun _ fresh enough invariant => ⟨fresh, Nat.le_refl _, invariant, holds _ enough⟩

theorem bind {search : Search ε κ α} {next : α → Search ε κ β} {middle : α → Nat → Prop}
    (first : Attains kept least search middle)
    (further : ∀ a offset, least ≤ offset → middle a offset → Attains kept offset (next a) post) :
    Attains kept least (search >>= next) post := by
  intro progress fresh enough invariant
  obtain ⟨fresh', grows, held, reached⟩ := first progress fresh enough invariant
  obtain ⟨fresh'', grows', held', result⟩ :=
    further _ _ (enough.trans grows) reached _ fresh' (Nat.le_refl _) held
  exact ⟨fresh'', grows.trans grows', held', result⟩

theorem weaken {search : Search ε κ β} {strong : β → Nat → Prop}
    (attained : Attains kept least search strong)
    (weaker : ∀ result offset, strong result offset → post result offset) :
    Attains kept least search post := by
  intro progress fresh enough invariant
  obtain ⟨fresh', grows, held, result⟩ := attained progress fresh enough invariant
  exact ⟨fresh', grows, held, weaker _ _ result⟩

theorem further {search : Search ε κ β} (attained : Attains kept least search post) :
    Attains kept least search fun result offset => least ≤ offset ∧ post result offset := by
  intro progress fresh enough invariant
  obtain ⟨fresh', grows, held, result⟩ := attained progress fresh enough invariant
  exact ⟨fresh', grows, held, enough.trans grows, result⟩

/-- What the search ensures may be assumed. -/
theorem ensuring {kept' : Known ε κ → Prop} {search : Search ε κ β} {strong : β → Prop}
    (attained : Attains kept least search post) (ensured : Ensures kept' search strong)
    (part : ∀ offset known, kept offset known → kept' known) :
    Attains kept least search fun result offset => post result offset ∧ strong result := by
  intro progress fresh enough invariant
  obtain ⟨fresh', grows, held, result⟩ := attained progress fresh enough invariant
  exact ⟨fresh', grows, held, result, (ensured progress (part _ _ invariant)).1⟩

theorem expect (grow : Grows kept) (scope : Scope ε κ) (place : Cursor) (expected : Expected) :
    Attains kept least (expect scope place expected) fun _ offset => place.offset ≤ offset := by
  intro progress fresh enough invariant
  obtain ⟨grows, noted⟩ :=
    Failure.note_further fresh (scope.active.map Prod.fst) place expected
  exact ⟨Failure.note_fresh, grows, grow _ _ _ grows invariant, noted⟩

theorem perhapsExpect (grow : Grows kept) {scope : Scope ε κ} {place : Cursor}
    {expected : Expected} {condition : Prop} [Decidable condition] {next : Unit → Search ε κ β}
    (attained : ∀ noted offset, least ≤ offset → (condition → place.offset ≤ offset) →
      Attains kept offset (next noted) post) :
    Attains kept least
      (if condition then Matching.expect scope place expected >>= next else next ()) post := by
  split
  next => exact (expect grow scope place expected).bind fun noted offset enough reached =>
    attained noted offset enough fun _ => reached
  next never => exact attained () least (Nat.le_refl _) fun noted => absurd noted never

theorem forM (grow : Grows kept) {scope : Scope ε κ} {list : List α} {place : α → Cursor}
    {expected : Expected} :
    Attains kept least (list.forM fun a => Matching.expect scope (place a) expected)
      fun _ offset => ∀ a ∈ list, (place a).offset ≤ offset := by
  induction list generalizing least with
  | nil => exact .pure fun _ _ => by simp
  | cons a rest ih =>
    refine (expect grow scope (place a) expected).bind fun _ offset _ reached => ?_
    refine ih.further.weaken fun _ later both => List.forall_mem_cons.mpr ⟨?_, both.2⟩
    exact reached.trans both.1

theorem mapM {list : List α} {search : α → Search ε κ β} (post : α → β → Nat → Prop)
    (mono : ∀ a b offset later, offset ≤ later → post a b offset → post a b later)
    (each : ∀ a ∈ list, ∀ offset, least ≤ offset → Attains kept offset (search a) (post a)) :
    Attains kept least (list.mapM search)
      fun results offset => List.Forall₂ (fun a b => post a b offset) list results := by
  induction list generalizing least with
  | nil => exact .pure fun _ _ => .nil
  | cons a rest ih =>
    rw [List.mapM_cons]
    refine (each a List.mem_cons_self _ (Nat.le_refl _)).bind fun b offset grows first => ?_
    refine (ih fun a member offset' grows' =>
      each a (List.mem_cons_of_mem _ member) offset' (grows.trans grows')).bind
        fun others later grows' related => .pure fun last further => ?_
    exact .cons (mono _ _ _ _ (grows'.trans further) first)
      (related.imp fun a b => mono a b _ _ further)

end Attains

/-! ### Terminals -/

variable {kept : Nat → Known ε κ → Prop} {least : Nat} {scope : Scope ε κ} {start : Cursor}

theorem Attempt.openLeaf?_leaf (attempt : Attempt ε κ) :
    openLeaf? [attempt.leaf] = some attempt.leaf := by
  rw [openLeaf?, Attempt.leaf, Node.openChainLast_cutOff]
  rfl

/-- A single attempt is noted and cut off as it says itself. -/
theorem Tried.single {completing : Bool} {offset : Nat} {attempt : Attempt ε κ}
    {cut : List (Node ε κ)}
    (noted : ∀ place, attempt.noted = some place → place.offset ≤ offset)
    (same : cut = if completing = true ∧ attempt.ended = true then [attempt.leaf] else []) :
    Tried completing offset (fun tried => tried = attempt) (cut.map fun node => [node]) where
  noted := by
    rintro _ rfl
    exact noted
  made := by
    subst same
    intro nodes member
    obtain ⟨node, listed, rfl⟩ := List.mem_map.mp member
    obtain ⟨⟨-, ended⟩, listed⟩ := List.mem_ite_nil_right.mp listed
    obtain rfl := List.mem_singleton.mp listed
    exact ⟨attempt, rfl, ended, attempt.openLeaf?_leaf⟩
  kept := by
    rintro wanted _ rfl ended
    refine ⟨[_], List.mem_map_of_mem ?_, Attempt.openLeaf?_leaf _⟩
    rw [same, if_pos ⟨wanted, ended⟩]
    exact List.mem_singleton_self _

theorem readLiteral_tries (grow : Grows kept) (text : String) :
    Attains kept least (readLiteral scope text start) fun readings offset =>
      Tried scope.completing offset (fun attempt => attempt = literalAttempt text start)
        (readings.cut.map fun node => [node]) := by
  rw [readLiteral, literalAttempt]
  cases scanLiteral text.toList start with
  | whole stop => exact .pure fun _ _ => .single (by simp) (by simp)
  | ended missing =>
    refine (Attains.expect grow _ _ _).bind fun _ offset _ noted => .pure fun later further => ?_
    refine .single ?_ ?_
    · rintro place ⟨⟩
      exact noted.trans further
    · simp [Scope.keep, Attempt.leaf, Attempt.name]
  | differs place missing =>
    refine (Attains.expect grow _ _ _).bind fun _ offset _ noted => .pure fun later further => ?_
    refine .single ?_ (by simp)
    rintro place ⟨⟩
    exact noted.trans further

theorem readRun_tries (grow : Grows kept) (slot : Placeholder) (accepts : Char → Bool)
    (expected : Expected) :
    Attains kept least (readRun scope slot accepts expected slot.runKind start)
      fun readings offset =>
        Tried scope.completing offset (fun attempt => attempt = runAttempt slot accepts start)
          (readings.cut.map fun node => [node]) := by
  rw [readRun, runAttempt]
  cases scanRun slot.quantifier accepts [] 0 start.offset start.rest with
  | mk scan extendable =>
    dsimp only
    split
    next further =>
      refine (Attains.expect grow _ _ _).bind fun _ offset _ noted => .pure fun later more => ?_
      refine .single ?_ ?_
      · simp only [Option.some.injEq]
        rintro place rfl
        exact noted.trans more
      · by_cases ended : scan.reached.rest = [] <;>
          simp [Scope.keep, Attempt.leaf, Attempt.name, further, ended]
    next full => exact .pure fun _ _ => .single (by simp) (by simp [full])

theorem readNumber_tries (grow : Grows kept) (slot : Placeholder) (type : Builtin) :
    Attains kept least (readNumber scope slot type start) fun readings offset =>
      Tried scope.completing offset (fun attempt => attempt = numberAttempt slot type start)
        (readings.cut.map fun node => [node]) := by
  rw [readNumber, numberAttempt]
  dsimp only
  split
  next further =>
    refine (Attains.expect grow _ _ _).bind fun _ offset _ noted => .pure fun later more => ?_
    refine .single ?_ ?_
    · simp only [Option.some.injEq]
      rintro place rfl
      exact noted.trans more
    · by_cases ended : (scanNumber (type = .float) start).reached.rest = [] <;>
        simp [Scope.keep, Attempt.leaf, Attempt.name, ended]
  next silent =>
    refine .pure fun _ _ => .single (by simp) ?_
    simp [(not_or.mp silent).2]

/-! ### Units -/

variable {rules : String → List (Alternative ε κ)}
  {ask : String → Cursor → List (TypeReading ε κ)} {named : TypeReader ε κ} {context : Context}
  {asked : String × Cursor → Prop}

variable (kept scope ask named context asked) in
/-- Wherever a type may be asked for, `named` makes all attempts at it, unless it is the one that is
being read there. -/
def NamedTries : Prop :=
  ∀ name place, asked (name, place) → ∀ least, Attains kept least (named scope name place)
    fun readings offset => Tried scope.completing offset
      (fun attempt => context ≠ some (name, place) ∧
        TriesType scope.registry.alternatives scope.config ask name place attempt)
      (readings.cut.map Prod.snd)

theorem alternatives_undefined {registry : Registry ε κ} {name : String}
    (undefined : registry.containsType name = false) : registry.alternatives name = [] := by
  simp only [Registry.containsType, Option.isSome_eq_false_iff, Option.isNone_iff_eq_none]
    at undefined
  simp [Registry.alternatives, undefined]

theorem readUnit_tries (grow : Grows kept) (tries : NamedTries kept scope ask named context asked)
    {slot : Placeholder} (several : slot.target.single? = none)
    (asks : ∀ name, slot.target = .named name → asked (name, start)) :
    Attains kept least (readUnit scope named slot start) fun readings offset =>
      Tried scope.completing offset
        (TriesUnit scope.registry.alternatives scope.config ask context slot start)
        (readings.cut.map fun node => [node]) := by
  rw [readUnit]
  cases target : slot.target with
  | charClass set => simp [target, Target.single?] at several
  | builtin type =>
    refine (readNumber_tries grow slot type).weaken fun readings offset tried =>
      tried.congr fun attempt => ⟨?_, fun tries => ?_⟩
    · rintro rfl
      exact .number start target
    · cases tries with
      | number _ target' =>
        obtain rfl := Target.builtin.inj (target.symm.trans target')
        rfl
      | type target' => simp [target] at target'
  | named type =>
    have iff attempt : (context ≠ some (type, start) ∧
        TriesType scope.registry.alternatives scope.config ask type start attempt) ↔
          TriesUnit scope.registry.alternatives scope.config ask context slot start attempt := by
      constructor
      · rintro ⟨other, inner⟩
        exact .type target other inner
      · intro tries
        cases tries with
        | number _ target' => simp [target] at target'
        | type target' other inner =>
          obtain rfl := Target.named.inj (target.symm.trans target')
          exact ⟨other, inner⟩
    dsimp only
    rw [readNamed]
    split
    next =>
      refine (tries type start (asks type target) least).bind fun readings offset _ tried =>
        .pure fun later further => ?_
      rw [List.map_map]
      exact ((tried.mono further).congr iff).map fun _ _ => Node.openLeaf?_cutOff
    next undefined =>
      refine (Attains.expect grow _ _ _).bind fun _ _ _ _ => .pure fun later _ =>
        .nil fun attempt tries => ?_
      obtain ⟨-, inner⟩ := (iff attempt).mpr tries
      cases inner with
      | alternative member =>
        rw [alternatives_undefined (Bool.not_eq_true _ ▸ undefined)] at member
        cases member

theorem readSeparator_tries (grow : Grows kept) (count : Nat) :
    Attains kept least (readSeparator scope count start) fun chains offset =>
      Tried scope.completing offset
        (fun attempt => count ≠ 0 ∧ ∃ text, scope.config.repetition.separator? = some text ∧
          attempt = literalAttempt text start)
        chains.cut := by
  rw [readSeparator]
  cases separator : scope.config.repetition.separator? with
  | none => exact .pure fun _ _ => .nil (by simp)
  | some text =>
    dsimp only
    split
    next first => exact .pure fun _ _ => .nil (by simp [first])
    next further =>
      refine (readLiteral_tries grow text).bind fun readings offset _ tried => .pure fun later more => ?_
      exact (tried.mono more).congr fun attempt => by simp [further]

/-! ### Repetitions -/

/-- The same for a search with a state of its own, of which an invariant is kept, too. -/
def AttainsWith (kept : Nat → Known ε κ → Prop) (held : Nat → Repeated ε κ → Prop) (least : Nat)
    (search : StateT (Repeated ε κ) (Search ε κ) α) (post : α → Nat → Prop) : Prop :=
  ∀ state progress, progress.failure.Fresh → least ≤ progress.failure.place.offset →
    kept progress.failure.place.offset progress.known → held progress.failure.place.offset state →
      let run := (search.run state).run progress
      run.2.failure.Fresh ∧ progress.failure.place.offset ≤ run.2.failure.place.offset ∧
        kept run.2.failure.place.offset run.2.known ∧ held run.2.failure.place.offset run.1.2 ∧
          post run.1.1 run.2.failure.place.offset

namespace AttainsWith

variable {held : Nat → Repeated ε κ → Prop} {post : β → Nat → Prop}

theorem pure {result : β} (holds : ∀ offset, least ≤ offset → post result offset) :
    AttainsWith kept held least (Pure.pure result) post :=
  fun _ _ fresh enough invariant state => ⟨fresh, Nat.le_refl _, invariant, state, holds _ enough⟩

theorem bind {search : StateT (Repeated ε κ) (Search ε κ) α}
    {next : α → StateT (Repeated ε κ) (Search ε κ) β} {middle : α → Nat → Prop}
    (first : AttainsWith kept held least search middle)
    (further : ∀ a offset, least ≤ offset → middle a offset →
      AttainsWith kept held offset (next a) post) :
    AttainsWith kept held least (search >>= next) post := by
  intro state progress fresh enough invariant holds
  obtain ⟨fresh', grows, kept', held', reached⟩ := first state progress fresh enough invariant holds
  obtain ⟨fresh'', grows', kept'', held'', result⟩ :=
    further _ _ (enough.trans grows) reached _ _ fresh' (Nat.le_refl _) kept' held'
  exact ⟨fresh'', grows.trans grows', kept'', held'', result⟩

theorem lift (mono : ∀ offset later state, offset ≤ later → held offset state → held later state)
    {search : Search ε κ β} (attained : Attains kept least search post) :
    AttainsWith kept held least (StateT.lift search) post := by
  intro state progress fresh enough invariant holds
  obtain ⟨fresh', grows, kept', result⟩ := attained progress fresh enough invariant
  exact ⟨fresh', grows, kept', mono _ _ _ grows holds, result⟩

theorem get {next : Repeated ε κ → StateT (Repeated ε κ) (Search ε κ) β}
    (further : ∀ state offset, least ≤ offset → held offset state →
      AttainsWith kept held offset (next state) post) :
    AttainsWith kept held least (MonadState.get >>= next) post :=
  fun state progress fresh enough invariant holds =>
    further state _ enough holds state progress fresh (Nat.le_refl _) invariant holds

/-- A repetition remembers a result and returns it. -/
theorem finish {key : Nat × Nat} {chains : Chains ε κ} {post : Chains ε κ → Nat → Prop}
    (added : ∀ offset state, least ≤ offset → held offset state →
      held offset ((key, chains) :: state))
    (holds : ∀ offset, least ≤ offset → post chains offset) :
    AttainsWith kept held least
      (do modify fun state : Repeated ε κ => (key, chains) :: state; return chains) post :=
  fun state _ fresh enough invariant holds' =>
    ⟨fresh, Nat.le_refl _, invariant, added _ state enough holds', holds _ enough⟩

theorem run {search : StateT (Repeated ε κ) (Search ε κ) β}
    (attained : AttainsWith kept held least search post) (empty : ∀ offset, held offset []) :
    Attains kept least (search.run []) fun result => post result.1 := by
  intro progress fresh enough invariant
  obtain ⟨fresh', grows, kept', -, result⟩ := attained [] progress fresh enough invariant (empty _)
  exact ⟨fresh', grows, kept', result⟩

theorem mapM {list : List α} {search : α → StateT (Repeated ε κ) (Search ε κ) β}
    (post : α → β → Nat → Prop)
    (mono : ∀ a b offset later, offset ≤ later → post a b offset → post a b later)
    (each : ∀ a ∈ list, ∀ offset, least ≤ offset →
      AttainsWith kept held offset (search a) (post a)) :
    AttainsWith kept held least (list.mapM search)
      fun results offset => List.Forall₂ (fun a b => post a b offset) list results := by
  induction list generalizing least with
  | nil => exact .pure fun _ _ => .nil
  | cons a rest ih =>
    rw [List.mapM_cons]
    refine (each a List.mem_cons_self _ (Nat.le_refl _)).bind fun b offset grows first => ?_
    refine (ih fun a member offset' grows' =>
      each a (List.mem_cons_of_mem _ member) offset' (grows.trans grows')).bind
        fun others later grows' related => .pure fun last further => ?_
    exact .cons (mono _ _ _ _ (grows'.trans further) first)
      (related.imp fun a b => mono a b _ _ further)

end AttainsWith

variable (rules) in
/-- The place is one of the text, and the types of all further units may be asked for. -/
def UnitsAsked (text : List Char) (config : Config) (asked : String × Cursor → Prop)
    (slot : Placeholder) (count : Nat) (place : Cursor) : Prop :=
  place.In text ∧ ∀ name there, slot.target = .named name →
    UnitAt rules config slot count place there → asked (name, there)

/-- The attempts behind a number of units that stands for several ones, whichever these are. -/
def TailTried (scope : Scope ε κ) (ask : String → Cursor → List (TypeReading ε κ))
    (context : Context) (asked : String × Cursor → Prop) (text : List Char) (slot : Placeholder)
    (place : Cursor) (done : Nat) (chains : Chains ε κ) (offset : Nat) : Prop :=
  ∀ real, slot.quantifier.Counts real done →
    UnitsAsked scope.registry.alternatives text scope.config asked slot real place →
      Tried scope.completing offset
        (TriesUnits scope.registry.alternatives scope.config ask context slot real place) chains.cut

/-- Whatever a repetition remembers, the attempts were made behind it. -/
def RepeatedTried (scope : Scope ε κ) (ask : String → Cursor → List (TypeReading ε κ))
    (context : Context) (asked : String × Cursor → Prop) (text : List Char) (slot : Placeholder)
    (offset : Nat) (known : Repeated ε κ) : Prop :=
  ∀ entry ∈ known, ∀ place : Cursor, place.offset = entry.1.1 →
    TailTried scope ask context asked text slot place entry.1.2 entry.2 offset

theorem TailTried.mono {text : List Char} {slot : Placeholder} {place : Cursor} {done : Nat}
    {chains : Chains ε κ} {offset later : Nat}
    (tried : TailTried scope ask context asked text slot place done chains offset)
    (further : offset ≤ later) :
    TailTried scope ask context asked text slot place done chains later :=
  fun real counts reached => (tried real counts reached).mono further

theorem repeatedTried_mono {text : List Char} {slot : Placeholder} (offset later : Nat)
    (known : Repeated ε κ) (further : offset ≤ later)
    (tried : RepeatedTried scope ask context asked text slot offset known) :
    RepeatedTried scope ask context asked text slot later known :=
  fun entry member place same => (tried entry member place same).mono further

theorem Tried.after {completing : Bool} {offset : Nat} {tries : Attempt ε κ → Prop}
    {chains : Chains ε κ} (tried : Tried completing offset tries chains.cut)
    (nodes : List (Node ε κ)) : Tried completing offset tries (chains.after nodes).cut := by
  rw [← chains.cut.map_id] at tried
  exact tried.map fun _ _ => Node.openLeaf?_append

theorem UnitsAsked.next {text : List Char} {config : Config} {slot : Placeholder} {count : Nat}
    {opening : Chain ε κ} {found : Reading ε κ}
    (reached : UnitsAsked rules text config asked slot count start)
    (more : slot.quantifier.allowsMore count = true)
    (separator : Opening config count start opening.stop opening.nodes)
    (derived : DerivesUnit rules config slot opening.stop found.stop found.node)
    (moves : found.stop.offset ≠ start.offset) :
    UnitsAsked rules text config asked slot (count + 1) found.stop := by
  obtain ⟨_, before⟩ := separator.passes
  obtain ⟨_, behind⟩ := derived.passes
  exact ⟨reached.1.passes (before.trans behind), fun name there target later =>
    reached.2 name there target (.later more separator derived moves later)⟩

variable {kept' : Known ε κ → Prop} {text : List Char}

/-- Of elements at places of the text, the first one for each place gets everywhere. -/
theorem exists_keepNew_iff {place : α → Cursor} {list : List α}
    (inside : ∀ a ∈ list, (place a).In text) (holds : Cursor → Prop) :
    (∃ a ∈ keepNew (fun a => (place a).offset) [] list, holds (place a)) ↔
      ∃ a ∈ list, holds (place a) := by
  constructor
  · rintro ⟨a, member, there⟩
    exact ⟨a, (keepNew_sublist _ _ _).subset member, there⟩
  · rintro ⟨a, member, there⟩
    obtain ⟨first, kept, same⟩ : ∃ first ∈ keepNew (fun a => (place a).offset) [] list,
        (place first).offset = (place a).offset := exists_mem_keepNew member List.not_mem_nil
    have listed := (keepNew_sublist _ _ _).subset kept
    exact ⟨first, kept, (inside first listed).eq_of_offset (inside a member) same ▸ there⟩

/-- The attempts behind a count of units are those at a separator, those at the unit behind it and, for
each place where such a unit stops, those behind the first one that stops there. -/
theorem triesUnits_behind {config : Config} {slot : Placeholder} {count : Nat}
    {opening : Chain ε κ} {others : List (Chain ε κ)} {attempt : Attempt ε κ}
    (sound : Sound rules config (within context ask)) (inside : start.In text)
    (more : slot.quantifier.allowsMore count = true)
    (opened : openings config count start = opening :: others) :
    TriesUnits rules config ask context slot count start attempt ↔
      ((count ≠ 0 ∧ ∃ separator, config.repetition.separator? = some separator ∧
          attempt = literalAttempt separator start) ∨
        TriesUnit rules config ask context slot opening.stop attempt) ∨
        ∃ found ∈ firstReadings (Enumerate.unit (within context ask) slot opening.stop),
          found.stop.rest.length < start.rest.length ∧
            TriesUnits rules config ask context slot (count + 1) found.stop attempt := by
  obtain rfl := openings_unique opened
  have separator : Opening config count start opening.stop opening.nodes :=
    mem_openings.mp (opened ▸ List.mem_cons_self)
  have inside' : ∀ found ∈ Enumerate.unit (within context ask) slot opening.stop,
      found.stop.In text := by
    intro found member
    obtain ⟨_, before⟩ := separator.passes
    obtain ⟨_, behind⟩ := (derives_of_mem_unit sound member).passes
    exact (inside.passes before).passes behind
  have units := exists_keepNew_iff inside' fun stop => stop.rest.length < start.rest.length ∧
    TriesUnits rules config ask context slot (count + 1) stop attempt
  rw [triesUnits_iff, opened, firstReadings, units]
  simp [more, or_assoc]

theorem readRepeated_tries (grow : Grows kept)
    (part : ∀ offset known, kept offset known → kept' known)
    (refines : NamedRefines scope.registry.alternatives kept' scope named (within context ask) asked)
    (tries : NamedTries kept scope ask named context asked) {slot : Placeholder}
    (several : slot.target.single? = none) {steps done real : Nat}
    (enough : start.rest.length < steps) (counts : slot.quantifier.Counts real done)
    (reached : UnitsAsked scope.registry.alternatives text scope.config asked slot real start) :
    AttainsWith kept (RepeatedTried scope ask context asked text slot) least
      (readRepeated scope (readUnit scope named slot) slot.quantifier steps done start)
      (TailTried scope ask context asked text slot start done) := by
  induction steps generalizing done start real least with
  | zero => omega
  | succ steps ih =>
    rw [readRepeated]
    refine .get fun known offset _ entries => ?_
    split
    next chains found =>
      exact .pure fun later further => (entries _ (mem_of_lookup found) start rfl).mono further
    next =>
      extract_lets here finish
      -- All ways to end are the same: what is cut off is remembered and returned.
      have finished {offset : Nat} (further : Chains ε κ)
          (tried : TailTried scope ask context asked text slot start done further offset) :
          AttainsWith kept (RepeatedTried scope ask context asked text slot) offset (finish further)
            (TailTried scope ask context asked text slot start done) := by
        refine .finish (fun later known more entries => ?_) fun later more => tried.mono more
        refine List.forall_mem_cons.mpr ⟨fun place same real counts reached' => ?_, entries⟩
        obtain rfl := reached'.1.eq_of_offset reached.1 same
        exact tried.mono more real counts reached'
      simp only [pure_bind]
      split
      case isFalse full =>
        refine finished _ fun real counts _ => .nil fun attempt tries => full ?_
        rw [allowsMore_of_counts counts]
        exact (triesUnits_iff.mp tries).1
      case isTrue more =>
        have allows {real} (counts : slot.quantifier.Counts real done) :
            slot.quantifier.allowsMore real = true := allowsMore_of_counts counts ▸ more
        refine (AttainsWith.lift repeatedTried_mono ((readSeparator_tries grow done).ensuring
          (readSeparator_openings done) part)).bind fun opening offset' _ both => ?_
        obtain ⟨separators, opened⟩ := both
        have openings_eq {real} (counts : slot.quantifier.Counts real done) :
            openings scope.config real start = opening.whole := by
          rw [opened, openings_of_counts _ counts]
        split
        next none =>
          refine finished _ fun real counts _ => separators.congr fun attempt => ?_
          rw [triesUnits_iff, openings_eq counts, none]
          simp [allows counts, zero_iff_of_counts counts]
        next first others whole =>
          have separator {real} (counts : slot.quantifier.Counts real done) :
              Opening scope.config real start first.stop first.nodes :=
            mem_openings.mp (openings_eq counts ▸ whole ▸ List.mem_cons_self)
          have asks : ∀ name, slot.target = .named name → asked (name, first.stop) :=
            fun name target => reached.2 name _ target (.here (allows counts) (separator counts))
          refine (AttainsWith.lift repeatedTried_mono ((readUnit_tries grow tries several asks).ensuring
            (readUnit_refines refines several asks) part)).bind fun units offset'' later both => ?_
          obtain ⟨unit, read⟩ := both
          have derived found (member : found ∈ units.whole) :
              DerivesUnit scope.registry.alternatives scope.config slot first.stop found.stop
                found.node := by
            rw [read] at member
            exact derives_of_mem_unit refines.sound ((keepNew_sublist _ _ _).subset member)
          refine (AttainsWith.mapM (fun found tails offset => ∀ real,
              slot.quantifier.Counts real done →
                UnitsAsked scope.registry.alternatives text scope.config asked slot real start →
                  Tried scope.completing offset (fun attempt =>
                    found.stop.rest.length < start.rest.length ∧
                      TriesUnits scope.registry.alternatives scope.config ask context slot (real + 1)
                        found.stop attempt) tails.cut)
            (fun _ _ _ _ more tried real counts reached => (tried real counts reached).mono more)
            fun found member offset _ => ?each).bind fun tails last more related =>
              finished _ fun real counts reached => ?behind
          case each =>
            have moved_iff := moved_iff (separator counts) (derived found member)
            split
            next stands =>
              exact .pure fun _ _ _ _ _ => .nil fun _ tries => moved_iff.mp tries.1 stands
            next moves =>
              have shorter := moved_iff.mpr moves
              refine (ih (by omega) (counts_next counts more) (reached.next (allows counts)
                (separator counts) (derived found member) moves)).bind fun rest _ _ tried =>
                  .pure fun _ further real counts reached => ?_
              have behind := tried (real + 1) (counts_next counts more) (reached.next (allows counts)
                (separator counts) (derived found member) moves)
              exact ((behind.mono further).congr fun _ => (and_iff_right shorter).symm).after _
          case behind =>
            have tails := Tried.flatMap (related.imp fun _ _ tried => tried real counts reached)
            have unit : Tried scope.completing last
                (TriesUnit scope.registry.alternatives scope.config ask context slot first.stop)
                (units.cut.map fun node => first.nodes ++ [node]) :=
              (unit.mono more).map fun _ _ => Node.openLeaf?_append
            have all := ((separators.mono (later.trans more)).append unit).append tails
            refine all.congr fun attempt => ?_
            rw [triesUnits_behind refines.sound reached.1 (allows counts)
              ((openings_eq counts).trans whole), ne_eq, zero_iff_of_counts counts, read]

/-! ### Items and alternatives -/

/-- The places behind the next item are those of its readings behind one of the chains. -/
theorem exists_next_iff {config : Config} {sounds : String → Cursor → List (TypeReading ε κ)}
    (sound : Sound rules config sounds) {item : Item} {chains : List (Chain ε κ)}
    (inside : ∀ chain ∈ chains, chain.stop.In text) (holds : Cursor → Prop) :
    (∃ chain ∈ firstPerStop (chains.flatMap (behindItem config sounds item)), holds chain.stop) ↔
      ∃ chain ∈ chains, ∃ found ∈ Enumerate.item config sounds item chain.stop,
        holds found.stop := by
  have inside' chain (member : chain ∈ chains.flatMap (behindItem config sounds item)) :
      chain.stop.In text := by
    obtain ⟨before, earlier, _, derived⟩ := derives_of_mem_behindItem sound member
    obtain ⟨_, passes⟩ := derived.passes
    exact (inside before earlier).passes passes
  rw [firstPerStop, exists_keepNew_iff inside' holds]
  constructor
  · rintro ⟨next, member, there⟩
    obtain ⟨chain, earlier, member⟩ := List.mem_flatMap.mp member
    obtain ⟨found, read, rfl⟩ := List.mem_map.mp member
    exact ⟨chain, earlier, found, read, there⟩
  · rintro ⟨chain, earlier, found, read, there⟩
    exact ⟨addNode chain found, List.mem_flatMap.mpr ⟨chain, earlier, List.mem_map_of_mem read⟩, there⟩

section

variable (grow : Grows kept) (part : ∀ offset known, kept offset known → kept' known)
  (refines : NamedRefines scope.registry.alternatives kept' scope named (within context ask) asked)
  (tries : NamedTries kept scope ask named context asked)

include grow part refines tries

theorem readItem_tries {item : Item} {rest : List Item} (inside : start.In text)
    (asks : ∀ pair, ItemsAsk scope.registry.alternatives scope.config (item :: rest) start pair →
      asked pair) :
    Attains kept least (readItem scope named item start) fun readings offset =>
      Tried scope.completing offset
        (TriesItem scope.registry.alternatives scope.config ask context item start)
        (readings.cut.map fun node => [node]) := by
  cases item with
  | literal literal span =>
    refine (readLiteral_tries grow literal).weaken fun readings offset tried =>
      tried.congr fun attempt => ⟨?_, fun tries => ?_⟩
    · rintro rfl
      exact .literal start
    · cases tries
      rfl
  | placeholder slot =>
    rw [readItem]
    cases single : slot.target.single? with
    | some accepts =>
      rw [readPlaceholder_run scope named start single]
      refine (readRun_tries grow slot accepts _).weaken fun readings offset tried =>
        tried.congr fun attempt => ⟨?_, fun tries => ?_⟩
      · rintro rfl
        exact .run start single
      · cases tries with
        | run _ target =>
          obtain rfl := Option.some.inj (single.symm.trans target)
          rfl
        | single target => simp [single] at target
        | repetition target => simp [single] at target
    | none =>
      have repeated (name place) (target : slot.target = .named name)
          (unit : UnitAt scope.registry.alternatives scope.config slot 0 start place) :
          asked (name, place) :=
        asks (name, place) (.here target unit)
      rw [readPlaceholder_several single]
      split
      next one =>
        have more : slot.quantifier.allowsMore 0 = true := by
          simp [one, Quantifier.one, Quantifier.allowsMore]
        refine (readUnit_tries grow tries single fun name target =>
          repeated name start target (.here more (.first _))).weaken fun readings offset tried =>
            tried.congr fun attempt => ⟨.single single one, fun tries => ?_⟩
        cases tries with
        | run _ target => simp [single] at target
        | single _ _ unit => exact unit
        | repetition _ several => exact absurd one several
      next several =>
        refine ((readRepeated_tries grow part refines tries single
          (Nat.lt_succ_self start.rest.length) (counts_zero slot.quantifier) ⟨inside, repeated⟩).run
            fun _ => by simp [RepeatedTried]).bind fun repeated' offset _ tried =>
          .pure fun later further => ?_
        have units := (tried 0 (counts_zero _) ⟨inside, repeated⟩).mono further
        rw [← repeated'.1.cut.map_id] at units
        rw [List.map_map]
        refine (units.map fun _ _ => Node.openLeaf?_cutOff).congr fun attempt =>
          ⟨.repetition single several, fun tries => ?_⟩
        cases tries with
        | run _ target => simp [single] at target
        | single _ one => exact absurd one several
        | repetition _ _ units => exact units

theorem readItems_tries (list : List Item) {chains : List (Chain ε κ)}
    (inside : ∀ chain ∈ chains, chain.stop.In text)
    (asks : ∀ chain ∈ chains, ∀ pair,
      ItemsAsk scope.registry.alternatives scope.config list chain.stop pair → asked pair) :
    Attains kept least (readItems scope named list chains) fun found offset =>
      Tried scope.completing offset (fun attempt => ∃ chain ∈ chains,
        TriesItems scope.registry.alternatives scope.config ask context list chain.stop attempt)
        found.cut := by
  induction list generalizing chains least with
  | nil => exact .pure fun _ _ => .nil fun attempt ⟨_, _, tries⟩ => by cases tries
  | cons item rest ih =>
    rw [readItems]
    refine (Attains.mapM (fun chain found offset => (Tried scope.completing offset
        (TriesItem scope.registry.alternatives scope.config ask context item chain.stop)
        (found.2.cut.map fun node => [node])) ∧ found.1 = chain ∧ found.2.whole =
          firstReadings (Enumerate.item scope.config (within context ask) item chain.stop))
      ?mono fun chain member offset _ => ?each).bind fun found offset _ related => ?behind
    case mono => exact fun chain found _ _ more both => ⟨both.1.mono more, both.2⟩
    case each =>
      have here := inside chain member
      refine ((readItem_tries grow part refines tries here (asks chain member)).ensuring
        (readItem_refines refines here (asks chain member)) part).bind fun readings _ _ both =>
          .pure fun _ more => ⟨both.1.mono more, rfl, both.2⟩
    case behind =>
      have next := firstPerStop_found (related.imp fun _ _ all => all.2)
      rw [next]
      have reached chain (member : chain ∈ firstPerStop (chains.flatMap
          (behindItem scope.config (within context ask) item))) :=
        derives_of_mem_behindItem refines.sound ((keepNew_sublist _ _ _).subset member)
      refine (ih (fun chain member => ?_) fun chain member pair later => ?_).bind
        fun behind last more tried => .pure fun later further => ?_
      · obtain ⟨before, earlier, _, derived⟩ := reached chain member
        obtain ⟨_, passes⟩ := derived.passes
        exact (inside before earlier).passes passes
      · obtain ⟨before, earlier, _, derived⟩ := reached chain member
        exact asks before earlier pair (.later derived later)
      · have first : Tried scope.completing later (fun attempt => ∃ chain ∈ chains,
            TriesItem scope.registry.alternatives scope.config ask context item chain.stop attempt)
            (found.flatMap fun after => after.2.cut.map fun node => after.1.nodes ++ [node]) :=
          .flatMap (related.imp fun _ _ all =>
            (all.1.mono (more.trans further)).map fun _ _ => Node.openLeaf?_append)
        refine (first.append (tried.mono further)).congr fun attempt => ?_
        rw [exists_next_iff refines.sound inside fun stop =>
          TriesItems scope.registry.alternatives scope.config ask context rest stop attempt]
        constructor
        · rintro (⟨chain, member, here⟩ | ⟨chain, member, reading, read, behind⟩)
          · exact ⟨chain, member, .here here⟩
          · exact ⟨chain, member, .later read behind⟩
        · rintro ⟨chain, member, tries⟩
          cases tries with
          | here first => exact .inl ⟨chain, member, first⟩
          | later read others => exact .inr ⟨chain, member, _, read, others⟩

theorem readAlternatives_tries (alternatives : List (Alternative ε κ)) (inside : start.In text)
    (asks : ∀ chosen ∈ alternatives, ∀ pair, ItemsAsk scope.registry.alternatives scope.config
      chosen.pattern.items start pair → asked pair) :
    Attains kept least (readAlternatives scope named alternatives start) fun readings offset =>
      Tried scope.completing offset (fun attempt => ∃ chosen ∈ alternatives,
        TriesItems scope.registry.alternatives scope.config ask context chosen.pattern.items start
          attempt) (readings.cut.map Prod.snd) := by
  rw [readAlternatives]
  refine (Attains.mapM (fun chosen found offset => Tried scope.completing offset
      (TriesItems scope.registry.alternatives scope.config ask context chosen.pattern.items start)
      found.2.cut) ?mono fun chosen member offset _ => ?each).bind fun found offset _ related =>
        .pure fun later more => ?_
  case mono => exact fun chosen found _ _ more tried => tried.mono more
  case each =>
    refine (readItems_tries grow part refines tries chosen.pattern.items (by simpa using inside)
      (by simpa using asks chosen member)).bind fun chains _ _ tried => .pure fun _ more => ?_
    exact (tried.mono more).congr fun attempt => by simp
  · rw [List.map_flatMap]
    simp only [List.map_map, Function.comp_def, List.map_id']
    exact .flatMap (related.imp fun _ _ tried => tried.mono more)

end

/-! ### Types -/

section

variable {registry : Registry ε κ} {config : Config} {completing : Bool}
  {chain : List (String × Cursor)} {name : String} {place : Cursor}

/-- The attempts at a type, in a text where no two types recur in each other at one place. -/
abbrev TypeTries (registry : Registry ε κ) (config : Config) (text : List Char) :
    String → Cursor → Attempt ε κ → Prop :=
  TriesType registry.alternatives config (canonical registry config text)

/-- All attempts were made at what is remembered of a type. -/
def EntryTried (registry : Registry ε κ) (config : Config) (completing : Bool) (text : List Char)
    (offset : Nat) (entry : (String × Nat) × TypeReadings ε κ) : Prop :=
  ∀ place : Cursor, place.In text → place.offset = entry.1.2 →
    Tried completing offset (TypeTries registry config text entry.1.1 place)
      (entry.2.cut.map Prod.snd)

/-- What is remembered is faithful, and all attempts were made at it. -/
structure Recalls (registry : Registry ε κ) (config : Config) (completing : Bool)
    (text : List Char) (chain : List (String × Cursor)) (offset : Nat) (known : Known ε κ) :
    Prop where
  faithful : Faithful registry config text chain known
  tried : ∀ entry ∈ known, EntryTried registry config completing text offset entry

theorem recalls_grows : Grows (Recalls registry config completing text chain) :=
  fun _ _ _ further recalls => ⟨recalls.faithful, fun entry member place inside same =>
    (recalls.tried entry member place inside same).mono further⟩

theorem triesType_iff {attempt : Attempt ε κ} :
    TypeTries registry config text name place attempt ↔
      ∃ chosen ∈ registry.alternatives name, TriesItems registry.alternatives config
        (canonical registry config text) (some (name, place)) chosen.pattern.items place attempt := by
  constructor
  · rintro ⟨member, items⟩
    exact ⟨_, member, items⟩
  · rintro ⟨chosen, member, items⟩
    exact .alternative member items

-- A type that is asked for within others, the innermost of which is not attempted in itself.
private theorem tries_of_within
    (noMutual : NoMutualLeftRecursion registry.alternatives config text) (levels : Nat)
    (within : Within registry.alternatives config text chain (name, place))
    (ih : ∀ {inner : String} {there : Cursor} (least : Nat),
      Within registry.alternatives config text ((name, place) :: chain) (inner, there) →
        Attains (Recalls registry config completing text ((name, place) :: chain)) least
          (readType levels ⟨registry, config, completing, activeOf ((name, place) :: chain)⟩ inner
            there)
          fun readings offset => Tried completing offset (TypeTries registry config text inner there)
            (readings.cut.map Prod.snd)) :
    NamedTries (Recalls registry config completing text ((name, place) :: chain))
      ⟨registry, config, completing, activeOf ((name, place) :: chain)⟩
      (canonical registry config text) (readType levels) (some (name, place))
      (Asks registry.alternatives config (name, place)) := by
  intro inner there asks least
  by_cases same : (inner, there) = (name, place)
  -- The type that is being read itself: it is cut, as nothing of it is remembered yet.
  · obtain ⟨rfl, rfl⟩ := Prod.mk.inj same
    intro progress fresh enough recalls
    cases levels with
    | zero => exact ⟨fresh, Nat.le_refl _, recalls, .nil fun _ tries => tries.1 rfl⟩
    | succ levels =>
      have active : (inner, there.offset) ∈ activeOf ((inner, there) :: chain) := by
        simp [← activeOf_cons]
      rw [readType_active (recalls.faithful.fresh _ List.mem_cons_self) active]
      exact ⟨fresh, Nat.le_refl _, recalls, .nil fun _ tries => tries.1 rfl⟩
  · refine (ih least (within.next noMutual asks same)).weaken fun readings offset tried =>
      tried.congr fun attempt => (and_iff_right ?_).symm
    exact fun equal => same (Option.some.inj equal).symm

theorem readType_tries (noMutual : NoMutualLeftRecursion registry.alternatives config text)
    {levels : Nat} (within : Within registry.alternatives config text chain (name, place))
    (enough : levelsFor registry text ≤ levels + chain.length) (least : Nat) :
    Attains (Recalls registry config completing text chain) least
      (readType levels ⟨registry, config, completing, activeOf chain⟩ name place)
      fun readings offset => Tried completing offset (TypeTries registry config text name place)
        (readings.cut.map Prod.snd) := by
  induction levels generalizing chain name place least with
  | zero =>
    -- So many levels are never used up.
    have bound := within.length_le (fun _ => mem_typeNames)
    simp only [levelsFor, Registry.typeNames, List.length_map] at enough bound
    omega
  | succ levels ih =>
    intro progress fresh atLeast recalls
    have inside : place.In text := within.inside _ List.mem_cons_self
    cases found : progress.known.lookup (name, place.offset) with
    | some known =>
      rw [readType_known found]
      exact ⟨fresh, Nat.le_refl _, recalls, recalls.tried _ (mem_of_lookup found) place inside rfl⟩
    | none =>
      -- While the alternatives are read, the type counts as being read, and afterwards as known.
      have refines := named_of_within noMutual completing levels within fun deeper =>
        readType_refines noMutual completing deeper (by rw [List.length_cons]; omega)
      have tries : NamedTries (Recalls registry config completing text ((name, place) :: chain))
          ⟨registry, config, completing, activeOf ((name, place) :: chain)⟩ _ _ _ _ :=
        tries_of_within noMutual levels within fun least deeper =>
          ih deeper (by rw [List.length_cons]; omega) least
      have asks chosen (member : chosen ∈ registry.alternatives name) pair
          (asked : ItemsAsk registry.alternatives config chosen.pattern.items place pair) :
          Asks registry.alternatives config (name, place) pair := ⟨chosen, member, asked⟩
      obtain ⟨fresh', grows, recalls', tried, whole⟩ :=
        ((readAlternatives_tries recalls_grows (fun _ _ recalls => recalls.faithful) refines tries
          (registry.alternatives name) inside asks).ensuring (readAlternatives_refines refines
            (registry.alternatives name) inside asks) fun _ _ recalls => recalls.faithful)
          progress fresh atLeast ⟨recalls.faithful.enter found, recalls.tried⟩
      rw [← canonical_unfold noMutual inside] at whole
      rw [← activeOf_cons] at fresh' grows recalls' tried whole
      rw [readType_new found (inactive_of_within within) rfl]
      have tried := tried.congr fun attempt => triesType_iff.symm
      refine ⟨fresh', grows, ⟨recalls'.faithful.leave within whole, List.forall_mem_cons.mpr
        ⟨fun other inside' same => ?_, recalls'.tried⟩⟩, tried⟩
      obtain rfl := inside'.eq_of_offset inside same
      exact tried

theorem readSentences_tries (noMutual : NoMutualLeftRecursion registry.alternatives config text)
    {levels : Nat} (inside : place.In text) (enough : levelsFor registry text ≤ levels)
    (least : Nat) :
    Attains (Recalls registry config completing text []) least
      (readAlternatives ⟨registry, config, completing, []⟩ (readType levels) registry.sentences
        place)
      fun readings offset => Tried completing offset (fun attempt =>
        ∃ chosen ∈ registry.sentences, TriesItems registry.alternatives config
          (canonical registry config text) none chosen.pattern.items place attempt)
        (readings.cut.map Prod.snd) := by
  have sound := canonical_sound registry config text
  have refines : NamedRefines registry.alternatives (Faithful registry config text [])
      ⟨registry, config, completing, []⟩ (readType levels)
      (within none (canonical registry config text)) fun pair => pair.2.In text :=
    ⟨sound, fun _ there => eq_nil_of_undefined sound there, fun _ _ inside =>
      readType_refines noMutual completing (.alone inside) enough⟩
  have tries : NamedTries (Recalls registry config completing text [])
      ⟨registry, config, completing, []⟩ (canonical registry config text) (readType levels) none
      fun pair => pair.2.In text :=
    fun name place inside least => (readType_tries noMutual (.alone inside) enough least).weaken
      fun readings offset tried => tried.congr fun attempt => by simp
  refine readAlternatives_tries recalls_grows (fun _ _ recalls => recalls.faithful) refines tries
    registry.sentences inside fun _ _ pair asked => ?_
  obtain ⟨_, passes⟩ := asked.passes
  exact inside.passes passes

end

end SentenceGrammar.Matching
