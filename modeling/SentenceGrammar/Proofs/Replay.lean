import SentenceGrammar.Proofs.Terminals

/-!
# Reading again

A search only adds to what is remembered. So a search that reads no type within another one can be
run again at any later time: it finds what it remembers, with the same result. Hence it makes sense
to speak of *the* sentences at a place, for one pass through a text.
-/
namespace SentenceGrammar.Matching

variable {ε κ ρ α β : Type}

/-- What was remembered before is remembered afterwards. -/
def Extends (before after : Known ε κ) : Prop :=
  ∀ key readings, before.lookup key = some readings → after.lookup key = some readings

theorem Extends.refl (known : Known ε κ) : Extends known known := fun _ _ found => found

theorem Extends.trans {first second third : Known ε κ} (one : Extends first second)
    (other : Extends second third) : Extends first third :=
  fun key readings found => other key readings (one key readings found)

/-- Remembering something new forgets nothing. -/
theorem Extends.cons {before after : Known ε κ} (grown : Extends before after)
    {key : String × Nat} (new : before.lookup key = none) (readings : TypeReadings ε κ) :
    Extends before ((key, readings) :: after) := by
  -- The new entry comes first, but under a key that was not remembered.
  intro other found known
  have differs : (other == key) = false := by
    rw [beq_eq_false_iff_ne]
    rintro rfl
    rw [new] at known
    cases known
  rw [List.lookup_cons, differs]
  exact grown other found known

/-- The search is put together from searches for types, whatever these are. -/
inductive Uses (named : String → Cursor → Search ε κ (TypeReadings ε κ)) :
    {α : Type} → Search ε κ α → Prop where
  | pure {α : Type} (result : α) : Uses named (Pure.pure result)
  | bind {α β : Type} {search : Search ε κ α} {next : α → Search ε κ β} (first : Uses named search)
      (further : ∀ result, Uses named (next result)) : Uses named (search >>= next)
  | expect (scope : Scope ε κ) (place : Cursor) (expected : Expected) :
      Uses named (Matching.expect scope place expected)
  | named (name : String) (place : Cursor) : Uses named (named name place)

namespace Uses

variable {named : String → Cursor → Search ε κ (TypeReadings ε κ)}

theorem perhapsExpect {condition : Prop} [Decidable condition] {scope : Scope ε κ} {place : Cursor}
    {expected : Expected} {next : Unit → Search ε κ β} (further : ∀ noted, Uses named (next noted)) :
    Uses named
      (if condition then Matching.expect scope place expected >>= next else next ()) := by
  split
  · exact .bind (.expect scope place expected) further
  · exact further ()

theorem mapM {search : α → Search ε κ β} (list : List α)
    (each : ∀ a ∈ list, Uses named (search a)) : Uses named (list.mapM search) := by
  induction list with
  | nil => exact .pure []
  | cons a rest ih =>
    rw [List.mapM_cons]
    have others := ih fun a member => each a (List.mem_cons_of_mem _ member)
    exact .bind (each a List.mem_cons_self) fun b => .bind others fun bs => .pure (b :: bs)

theorem forM {search : α → Search ε κ Unit} (list : List α)
    (each : ∀ a ∈ list, Uses named (search a)) : Uses named (list.forM search) := by
  induction list with
  | nil => exact .pure ()
  | cons a rest ih =>
    exact .bind (each a List.mem_cons_self) fun _ =>
      ih fun a member => each a (List.mem_cons_of_mem _ member)

/-- Whatever reading a type keeps, a search keeps that is put together from such readings. -/
theorem ensures {kept : Known ε κ → Prop}
    (asks : ∀ name place, Ensures kept (named name place) fun _ => True) {search : Search ε κ α}
    (uses : Uses named search) : Ensures kept search fun _ => True := by
  induction uses with
  | pure => exact .pure trivial
  | bind _ _ first further => exact first.bind fun result _ => further result
  | expect scope place expected => exact .expect scope place expected
  | named name place => exact asks name place

end Uses

/-- The same for a search with a state of its own. -/
def UsesWith (named : String → Cursor → Search ε κ (TypeReadings ε κ))
    (search : StateT ρ (Search ε κ) α) : Prop :=
  ∀ state, Uses named (search.run state)

namespace UsesWith

variable {named : String → Cursor → Search ε κ (TypeReadings ε κ)}

theorem pure (result : α) : UsesWith named (Pure.pure result : StateT ρ (Search ε κ) α) :=
  fun _ => .pure _

theorem bind {search : StateT ρ (Search ε κ) α} {next : α → StateT ρ (Search ε κ) β}
    (first : UsesWith named search) (further : ∀ result, UsesWith named (next result)) :
    UsesWith named (search >>= next) := by
  intro state
  rw [StateT.run_bind]
  exact .bind (first state) fun result => further result.1 result.2

theorem lift {search : Search ε κ α} (uses : Uses named search) :
    UsesWith named (StateT.lift search : StateT ρ (Search ε κ) α) :=
  fun _ => .bind uses fun _ => .pure _

theorem get : UsesWith named (MonadState.get : StateT ρ (Search ε κ) ρ) := fun _ => .pure _

theorem modify (change : ρ → ρ) :
    UsesWith named (modify change : StateT ρ (Search ε κ) PUnit) := fun _ => .pure _

theorem mapM {search : α → StateT ρ (Search ε κ) β} (list : List α)
    (each : ∀ a ∈ list, UsesWith named (search a)) : UsesWith named (list.mapM search) := by
  induction list with
  | nil => exact pure []
  | cons a rest ih =>
    rw [List.mapM_cons]
    have others := ih fun a member => each a (List.mem_cons_of_mem _ member)
    exact bind (each a List.mem_cons_self) fun b => bind others fun bs => pure (b :: bs)

end UsesWith

/-! ### The searches for items -/

variable {scope : Scope ε κ} {named : TypeReader ε κ}

theorem readLiteral_uses (text : String) (start : Cursor) :
    Uses (named scope) (readLiteral scope text start) := by
  rw [readLiteral]
  split
  · exact .pure _
  · exact .bind (.expect _ _ _) fun _ => .pure _
  · exact .bind (.expect _ _ _) fun _ => .pure _

theorem readRun_uses (slot : Placeholder) (accepts : Char → Bool) (expected : Expected)
    (kind : NodeKind ε κ) (start : Cursor) :
    Uses (named scope) (readRun scope slot accepts expected kind start) := by
  unfold readRun
  split
  exact .perhapsExpect fun _ => .pure _

theorem readUnit_uses (slot : Placeholder) (start : Cursor) :
    Uses (named scope) (readUnit scope named slot start) := by
  rw [readUnit]
  split
  · unfold readNumber
    exact .perhapsExpect fun _ => .pure _
  next =>
    rw [readNamed]
    split
    · exact .bind (.named _ start) fun _ => .pure _
    · exact .bind (.expect _ _ _) fun _ => .pure _
  · exact .pure _

theorem readSeparator_uses (count : Nat) (start : Cursor) :
    Uses (named scope) (readSeparator scope count start) := by
  rw [readSeparator]
  split
  · split
    · exact .pure _
    · exact .bind (readLiteral_uses _ _) fun _ => .pure _
  · exact .pure _

theorem readRepeated_uses (slot : Placeholder) (steps count : Nat) (start : Cursor) :
    UsesWith (named scope)
      (readRepeated scope (readUnit scope named slot) slot.quantifier steps count start) := by
  induction steps generalizing count start with
  | zero => exact .pure _
  | succ steps ih =>
    rw [readRepeated]
    refine .bind .get fun known => ?_
    split
    next => exact .pure _
    next =>
      extract_lets here finish
      have finished (further : Chains ε κ) : UsesWith (named scope) (finish further) :=
        .bind (.modify _) fun _ => .pure _
      simp only [pure_bind]
      split
      · refine .bind (.lift (readSeparator_uses count start)) fun opening => ?_
        split
        · exact finished _
        next first _ _ =>
          refine .bind (.lift (readUnit_uses slot first.stop)) fun units => ?_
          refine .bind (.mapM _ fun found _ => ?_) fun tails => finished _
          split
          · exact .pure _
          · exact .bind (ih _ _) fun _ => .pure _
      · exact finished _

theorem readItem_uses (item : Item) (start : Cursor) :
    Uses (named scope) (readItem scope named item start) := by
  cases item with
  | literal text span => exact readLiteral_uses text start
  | placeholder slot =>
    rw [readItem]
    cases single : slot.target.single? with
    | some accepts =>
      rw [readPlaceholder_run scope named start single]
      exact readRun_uses slot accepts _ slot.runKind start
    | none =>
      rw [readPlaceholder_several single]
      split
      · exact readUnit_uses slot start
      · exact .bind (readRepeated_uses slot _ 0 start []) fun _ => .pure _

theorem readItems_uses (items : List Item) (chains : List (Chain ε κ)) :
    Uses (named scope) (readItems scope named items chains) := by
  induction items generalizing chains with
  | nil => exact .pure _
  | cons item rest ih =>
    refine .bind (.mapM _ fun chain _ => ?_) fun found => .bind (ih _) fun _ => .pure _
    exact .bind (readItem_uses item chain.stop) fun _ => .pure _

theorem readAlternatives_uses (alternatives : List (Alternative ε κ)) (start : Cursor) :
    Uses (named scope) (readAlternatives scope named alternatives start) := by
  refine .bind (.mapM _ fun alternative _ => ?_) fun _ => .pure _
  exact .bind (readItems_uses alternative.pattern.items _) fun _ => .pure _

/-! ### Reading types again -/

theorem readType_extends (before : Known ε κ) (levels : Nat) (scope : Scope ε κ) (name : String)
    (place : Cursor) :
    Ensures (Extends before) (readType levels scope name place) fun _ => True := by
  induction levels generalizing before scope name place with
  | zero => exact .pure trivial
  | succ levels ih =>
    intro progress grown
    cases found : progress.known.lookup (name, place.offset) with
    | some known =>
      rw [readType_known found]
      exact ⟨trivial, grown⟩
    | none =>
      by_cases active : (name, place.offset) ∈ scope.active
      · rw [readType_active found active]
        exact ⟨trivial, grown⟩
      · let inner := { scope with active := scope.active ++ [(name, place.offset)] }
        have uses : Uses (readType levels inner) (readAlternatives inner (readType levels)
          (scope.registry.alternatives name) place) := readAlternatives_uses _ _
        -- Its alternatives only add to what is remembered, and then the type itself is added.
        have reads := (uses.ensures (ih progress.known inner) progress (.refl _)).2
        rw [readType_new found active rfl]
        exact ⟨trivial, grown.trans (reads.cons found _)⟩

/-- Run again when everything is remembered that it remembered, the search has the same result. -/
def Replays (search : Search ε κ α) : Prop :=
  ∀ progress, Extends progress.known (search.run progress).2.known ∧
    ∀ later : Progress ε κ, Extends (search.run progress).2.known later.known →
      (search.run later).1 = (search.run progress).1 ∧
        (search.run later).2.known = later.known

theorem Replays.ensures {search : Search ε κ α} (replays : Replays search) (before : Known ε κ) :
    Ensures (Extends before) search fun _ => True :=
  fun progress grown => ⟨trivial, grown.trans (replays progress).1⟩

theorem Uses.replays {named : String → Cursor → Search ε κ (TypeReadings ε κ)}
    (asks : ∀ name place, Replays (named name place)) {search : Search ε κ α}
    (uses : Uses named search) : Replays search := by
  induction uses with
  | pure => exact fun _ => ⟨.refl _, fun _ _ => ⟨rfl, rfl⟩⟩
  | expect => exact fun _ => ⟨.refl _, fun _ _ => ⟨rfl, rfl⟩⟩
  | named name place => exact asks name place
  | @bind _ _ search next _ _ first further =>
    intro progress
    obtain ⟨grows, again⟩ := first progress
    obtain ⟨grows', again'⟩ := further (search.run progress).1 (search.run progress).2
    refine ⟨grows.trans grows', fun later remembers => ?_⟩
    -- The first search remembers less than both, so it replays, and the second one goes on from it.
    obtain ⟨same, known⟩ := again later (grows'.trans remembers)
    have still : Extends _ (search.run later).2.known := known ▸ remembers
    obtain ⟨same', known'⟩ := again' (search.run later).2 still
    rw [run_bind, run_bind, same]
    exact ⟨same', known'.trans known⟩

/-- Outside of all types, what is read of a type is remembered, and found again. -/
theorem readType_replays {scope : Scope ε κ} (outside : scope.active = []) (levels : Nat)
    (name : String) (place : Cursor) : Replays (readType levels scope name place) := by
  intro progress
  refine ⟨(readType_extends _ levels scope name place progress (.refl _)).2, ?_⟩
  cases levels with
  | zero => exact fun _ _ => ⟨rfl, rfl⟩
  | succ levels =>
    intro later remembers
    -- Whether it was known or is new, after the search the result is remembered.
    have remembered : later.known.lookup (name, place.offset) =
        some ((readType (levels + 1) scope name place).run progress).1 := by
      apply remembers
      cases found : progress.known.lookup (name, place.offset) with
      | some known =>
        rw [readType_known found]
        exact found
      | none =>
        rw [readType_new found (by simp [outside]) rfl]
        exact List.lookup_cons_self
    rw [readType_known remembered]
    exact ⟨rfl, rfl⟩

end SentenceGrammar.Matching
