import Mathlib.Data.List.Forall2
import SentenceGrammar.Matching.Script

/-!
# Assertions about searches

A search is specified by an invariant of what it remembers and an assertion about its result. The
rules follow the way searches are composed; recording a failure never matters, since no search
looks at the failures.
-/
namespace SentenceGrammar.Matching

variable {ε κ ρ α β : Type}

/-- What a search remembers: readings by the name of the type and the offset of the place. -/
abbrev Known (ε κ : Type) := List ((String × Nat) × TypeReadings ε κ)

theorem mem_of_lookup {κ : Type} [BEq κ] [LawfulBEq κ] {known : List (κ × β)} {key : κ} {value : β}
    (found : known.lookup key = some value) : (key, value) ∈ known := by
  obtain ⟨front, back, rfl, -⟩ := List.lookup_eq_some_iff.mp found
  exact List.mem_append_right _ List.mem_cons_self

theorem exists_of_forall₂ {related : α → β → Prop} {list : List α} {results : List β}
    (all : List.Forall₂ related list results) {b : β} (member : b ∈ results) :
    ∃ a ∈ list, related a b := by
  induction all with
  | nil => simp at member
  | cons first _ ih =>
    rcases List.mem_cons.mp member with rfl | member
    · exact ⟨_, List.mem_cons_self, first⟩
    · obtain ⟨a, found, holds⟩ := ih member
      exact ⟨a, List.mem_cons_of_mem _ found, holds⟩

theorem flatMap_of_forall₂ {γ : Type} {related : α → β → Prop} {list : List α} {results : List β}
    {f : β → List γ} {g : α → List γ} (all : List.Forall₂ related list results)
    (same : ∀ a b, related a b → f b = g a) : results.flatMap f = list.flatMap g := by
  induction all with
  | nil => rfl
  | cons first _ ih => rw [List.flatMap_cons, List.flatMap_cons, same _ _ first, ih]

/-- The search keeps an invariant of what is remembered, and then its result satisfies an
assertion. -/
def Ensures (kept : Known ε κ → Prop) (search : Search ε κ α) (post : α → Prop) : Prop :=
  ∀ progress, kept progress.known →
    post (search.run progress).1 ∧ kept (search.run progress).2.known

namespace Ensures

variable {kept : Known ε κ → Prop} {post : β → Prop}

theorem pure {result : β} (holds : post result) : Ensures kept (Pure.pure result) post :=
  fun _ invariant => ⟨holds, invariant⟩

theorem bind {search : Search ε κ α} {next : α → Search ε κ β} {middle : α → Prop}
    (first : Ensures kept search middle) (further : ∀ a, middle a → Ensures kept (next a) post) :
    Ensures kept (search >>= next) post := by
  intro progress invariant
  obtain ⟨reached, held⟩ := first progress invariant
  exact further _ reached _ held

theorem weaken {search : Search ε κ β} {strong : β → Prop} (ensured : Ensures kept search strong)
    (weaker : ∀ result, strong result → post result) : Ensures kept search post := by
  intro progress invariant
  obtain ⟨result, held⟩ := ensured progress invariant
  exact ⟨weaker _ result, held⟩

theorem and {search : Search ε κ β} {other : β → Prop} (first : Ensures kept search post)
    (second : Ensures kept search other) :
    Ensures kept search fun result => post result ∧ other result := by
  intro progress invariant
  obtain ⟨result, held⟩ := first progress invariant
  exact ⟨⟨result, (second progress invariant).1⟩, held⟩

theorem expect (scope : Scope ε κ) (place : Cursor) (expected : Expected) :
    Ensures kept (expect scope place expected) fun _ => True :=
  fun _ invariant => ⟨trivial, invariant⟩

/-- A note of what would have been accepted changes nothing that matters. -/
theorem afterExpect {scope : Scope ε κ} {place : Cursor} {expected : Expected}
    {search : Search ε κ β} (ensured : Ensures kept search post) :
    Ensures kept (Matching.expect scope place expected >>= fun _ => search) post :=
  (expect scope place expected).bind fun _ _ => ensured

theorem perhapsExpect {condition : Prop} [Decidable condition] {scope : Scope ε κ} {place : Cursor}
    {expected : Expected} {next : Unit → Search ε κ β}
    (ensured : ∀ noted, Ensures kept (next noted) post) :
    Ensures kept (if condition then Matching.expect scope place expected >>= next else next ())
      post := by
  split
  · exact (expect scope place expected).bind fun _ _ => ensured _
  · exact ensured ()

theorem forM {list : List α} {search : α → Search ε κ Unit}
    (each : ∀ a ∈ list, Ensures kept (search a) fun _ => True) :
    Ensures kept (list.forM search) fun _ => True := by
  induction list with
  | nil => exact pure trivial
  | cons a rest ih =>
    exact (each a List.mem_cons_self).bind fun _ _ =>
      ih fun a member => each a (List.mem_cons_of_mem _ member)

/-- What was remembered holds if everything that is remembered does. -/
theorem lookUp {holds : (String × Nat) × TypeReadings ε κ → Prop} (name : String)
    (place : Cursor) :
    Ensures (fun known => ∀ entry ∈ known, holds entry) (lookUp name place) fun found =>
      ∀ readings, found = some readings → holds ((name, place.offset), readings) :=
  fun _ invariant => ⟨fun _ found => invariant _ (mem_of_lookup found), invariant⟩

theorem remember {holds : (String × Nat) × TypeReadings ε κ → Prop} {name : String}
    {place : Cursor} {readings : TypeReadings ε κ} (new : holds ((name, place.offset), readings)) :
    Ensures (fun known => ∀ entry ∈ known, holds entry) (remember name place readings)
      fun _ => True :=
  fun _ invariant => ⟨trivial, List.forall_mem_cons.mpr ⟨new, invariant⟩⟩

theorem mapM {list : List α} {search : α → Search ε κ β} (post : α → β → Prop)
    (each : ∀ a ∈ list, Ensures kept (search a) (post a)) :
    Ensures kept (list.mapM search) (List.Forall₂ post list) := by
  induction list with
  | nil => exact pure .nil
  | cons a rest ih =>
    rw [List.mapM_cons]
    refine (each a List.mem_cons_self).bind fun b first => ?_
    refine (ih fun a member => each a (List.mem_cons_of_mem _ member)).bind fun others related => ?_
    exact pure (.cons first related)

end Ensures

/-! ### Reading a type -/

theorem run_bind (search : Search ε κ α) (next : α → Search ε κ β) (progress : Progress ε κ) :
    (search >>= next).run progress =
      (next (search.run progress).1).run (search.run progress).2 := rfl

section

variable {levels : Nat} {scope : Scope ε κ} {name : String} {start : Cursor}
  {progress : Progress ε κ}

private theorem run_lookUp {found : Option (TypeReadings ε κ)}
    (known : progress.known.lookup (name, start.offset) = found) :
    (lookUp name start).run progress = (found, progress) := by
  rw [← known]
  rfl

/-- What is remembered is returned. -/
theorem readType_known {readings : TypeReadings ε κ}
    (found : progress.known.lookup (name, start.offset) = some readings) :
    (readType (levels + 1) scope name start).run progress = (readings, progress) := by
  rw [readType, run_bind, run_lookUp found]
  rfl

/-- A type that is being read has no reading within itself. -/
theorem readType_active (new : progress.known.lookup (name, start.offset) = none)
    (active : (name, start.offset) ∈ scope.active) :
    (readType (levels + 1) scope name start).run progress = ({}, progress) := by
  rw [readType, run_bind, run_lookUp new]
  simp only [if_pos active]
  rfl

/-- Any other type is read by its alternatives and then remembered. -/
theorem readType_new (new : progress.known.lookup (name, start.offset) = none)
    (inactive : (name, start.offset) ∉ scope.active) {readings : TypeReadings ε κ}
    {after : Progress ε κ}
    (read : (readAlternatives { scope with active := scope.active ++ [(name, start.offset)] }
      (readType levels) (scope.registry.alternatives name) start).run progress =
        (readings, after)) :
    (readType (levels + 1) scope name start).run progress =
      (readings, { after with known := ((name, start.offset), readings) :: after.known }) := by
  rw [readType, run_bind, run_lookUp new]
  simp only [if_neg inactive]
  rw [run_bind, read]
  rfl

end

/-- The same for a search with a state of its own. -/
def EnsuresWith (kept : Known ε κ → Prop) (held : ρ → Prop) (search : StateT ρ (Search ε κ) α)
    (post : α → Prop) : Prop :=
  ∀ state, held state → Ensures kept (search.run state) fun result => post result.1 ∧ held result.2

namespace EnsuresWith

variable {kept : Known ε κ → Prop} {held : ρ → Prop} {post : β → Prop}

theorem pure {result : β} (holds : post result) : EnsuresWith kept held (Pure.pure result) post :=
  fun _ invariant => Ensures.pure ⟨holds, invariant⟩

theorem bind {search : StateT ρ (Search ε κ) α} {next : α → StateT ρ (Search ε κ) β}
    {middle : α → Prop} (first : EnsuresWith kept held search middle)
    (further : ∀ a, middle a → EnsuresWith kept held (next a) post) :
    EnsuresWith kept held (search >>= next) post := by
  intro state invariant
  rw [StateT.run_bind]
  exact (first state invariant).bind fun result both => further _ both.1 _ both.2

theorem lift {search : Search ε κ β} (ensured : Ensures kept search post) :
    EnsuresWith kept held (StateT.lift search) post :=
  fun _ invariant => ensured.bind fun _ result => Ensures.pure ⟨result, invariant⟩

theorem get : EnsuresWith kept held (MonadState.get : StateT ρ (Search ε κ) ρ) held :=
  fun _ invariant => Ensures.pure ⟨invariant, invariant⟩

theorem modify {change : ρ → ρ} (holds : ∀ state, held state → held (change state)) :
    EnsuresWith kept held (modify change : StateT ρ (Search ε κ) PUnit) fun _ => True :=
  fun _ invariant => Ensures.pure ⟨trivial, holds _ invariant⟩

theorem mapM {list : List α} {search : α → StateT ρ (Search ε κ) β} (post : α → β → Prop)
    (each : ∀ a ∈ list, EnsuresWith kept held (search a) (post a)) :
    EnsuresWith kept held (list.mapM search) (List.Forall₂ post list) := by
  induction list with
  | nil => exact pure .nil
  | cons a rest ih =>
    rw [List.mapM_cons]
    refine (each a List.mem_cons_self).bind fun b first => ?_
    refine (ih fun a member => each a (List.mem_cons_of_mem _ member)).bind fun others related => ?_
    exact pure (.cons first related)

end EnsuresWith

end SentenceGrammar.Matching
