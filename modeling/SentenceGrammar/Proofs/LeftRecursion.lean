import Mathlib.Data.List.Nodup
import Mathlib.Data.List.ProdSigma
import SentenceGrammar.Proofs.Enumeration

/-!
# Left recursion and depth

The readings of a type are enumerated to a given depth, and a type has no reading inside of itself
at the same place. Unless two different types recur in each other at one place, the types that are
being read within each other always differ in name or place. So there is a depth, the number of
names and places, beyond which nothing changes any more.
-/
namespace SentenceGrammar.Matching

variable {ε κ : Type}

namespace Enumerate

/-- The readings of all types but one, which has none at one place. -/
def avoiding (name : String) (start : Cursor) (ask : String → Cursor → List (TypeReading ε κ))
    (inner : String) (place : Cursor) : List (TypeReading ε κ) :=
  if inner = name ∧ place = start then [] else ask inner place

/-- The readings of a type by types in types, at most so many within each other, where left
recursion of a type in itself is cut. -/
def type (rules : String → List (Alternative ε κ)) (config : Config) :
    Nat → String → Cursor → List (TypeReading ε κ)
  | 0, _, _ => []
  | levels + 1, name, start =>
    oneOf config (avoiding name start (type rules config levels)) (rules name) start

/-- The readings of a type by types in types, at most so many within each other. -/
def naive (rules : String → List (Alternative ε κ)) (config : Config) :
    Nat → String → Cursor → List (TypeReading ε κ)
  | 0, _, _ => []
  | levels + 1, name, start => oneOf config (naive rules config levels) (rules name) start

end Enumerate

open Enumerate

variable {rules : String → List (Alternative ε κ)} {config : Config} {text : List Char}
  {names : List String} {chain : List (String × Cursor)} {pair inner : String × Cursor}

theorem avoiding_sound {name : String} {start : Cursor}
    {ask : String → Cursor → List (TypeReading ε κ)} (sound : Sound rules config ask) :
    Sound rules config (avoiding name start ask) := by
  intro inner place reading member
  rw [avoiding] at member
  split at member
  · simp at member
  · exact sound inner place reading member

theorem type_sound (levels : Nat) : Sound rules config (type rules config levels) := by
  induction levels with
  | zero => simp [Sound, type]
  | succ levels ih => exact fun _ _ _ member => derives_of_mem_oneOf (avoiding_sound ih) member

/-! ### Types within each other -/

variable (rules config text) in
/-- A type at a place is read within others, innermost first, which all differ from each other. -/
structure Within (chain : List (String × Cursor)) (pair : String × Cursor) : Prop where
  distinct : (pair :: chain).Nodup
  asked : ∀ outer ∈ chain, Relation.TransGen (Asks rules config) outer pair
  inside : ∀ inner ∈ pair :: chain, inner.2.In text

theorem Within.alone (inside : pair.2.In text) : Within rules config text [] pair :=
  ⟨List.nodup_singleton _, by simp, by simpa using inside⟩

theorem Asks.passes (asks : Asks rules config pair inner) : ∃ word, pair.2.Passes word inner.2 := by
  obtain ⟨_, _, items⟩ := asks
  exact items.passes

theorem Asks.inside (asks : Asks rules config pair inner) (inside : pair.2.In text) :
    inner.2.In text := by
  obtain ⟨_, passes⟩ := asks.passes
  exact inside.passes passes

/-- A different type that is asked for next is not among those being read. -/
theorem Within.not_mem (within : Within rules config text chain pair)
    (noMutual : NoMutualLeftRecursion rules config text) (asks : Asks rules config pair inner)
    (differs : inner ≠ pair) : inner ∉ pair :: chain := by
  intro member
  rcases List.mem_cons.mp member with same | outer
  · exact differs same
  -- A type further out would be asked for by a type that it asks for itself.
  · have there := within.asked inner outer
    exact differs (noMutual inner pair (within.inside inner member) there (.single asks))

theorem Within.next (within : Within rules config text chain pair)
    (noMutual : NoMutualLeftRecursion rules config text) (asks : Asks rules config pair inner)
    (differs : inner ≠ pair) : Within rules config text (pair :: chain) inner where
  distinct := List.nodup_cons.mpr ⟨within.not_mem noMutual asks differs, within.distinct⟩
  asked := by
    refine List.forall_mem_cons.mpr ⟨.single asks, fun outer member => ?_⟩
    exact (within.asked outer member).tail asks
  inside := by
    have here := within.inside pair List.mem_cons_self
    exact List.forall_mem_cons.mpr ⟨asks.inside here, within.inside⟩

/-- Types that use no other types do not recur in each other. -/
theorem noMutual_of_own (own : ∀ name, ∀ chosen ∈ rules name, ∀ slot inner,
    Item.placeholder slot ∈ chosen.pattern.items → slot.target = .named inner → inner = name)
    (text : List Char) : NoMutualLeftRecursion rules config text := by
  have next {outer inner : String × Cursor} (asks : Asks rules config outer inner) :
      inner.1 = outer.1 ∧ ∃ word, outer.2.Passes word inner.2 := by
    obtain ⟨chosen, member, asked⟩ := asks
    obtain ⟨slot, placeholder, target⟩ := asked.target
    exact ⟨own _ chosen member slot _ placeholder target, asked.passes⟩
  have further {outer inner : String × Cursor}
      (asks : Relation.TransGen (Asks rules config) outer inner) :
      inner.1 = outer.1 ∧ ∃ word, outer.2.Passes word inner.2 := by
    induction asks with
    | single asks => exact next asks
    | tail _ asks ih =>
      obtain ⟨same, _, passes⟩ := ih
      obtain ⟨again, _, more⟩ := next asks
      exact ⟨again.trans same, _, passes.trans more⟩
  intro first second inside there back
  obtain ⟨same, _, passes⟩ := further there
  obtain ⟨-, _, returns⟩ := further back
  -- Offsets never go back, so a round trip stays where it is.
  have offset := Nat.le_antisymm passes.offset_le returns.offset_le
  exact Prod.ext same.symm (inside.eq_of_offset (inside.passes passes) offset)

/-- There is no left recursion if what types ask for at their own place gets less and less. -/
theorem noLeftRecursion_of_rank (rank : String → Nat)
    (falls : ∀ outer inner, Asks rules config outer inner →
      outer.2.offset < inner.2.offset ∨ rank inner.1 < rank outer.1)
    (text : List Char) : NoLeftRecursion rules config text := by
  have next {outer inner : String × Cursor} (asks : Asks rules config outer inner) :
      outer.2.offset < inner.2.offset ∨
        outer.2.offset = inner.2.offset ∧ rank inner.1 < rank outer.1 := by
    obtain ⟨_, passes⟩ := asks.passes
    have forward := passes.offset_le
    have lower := falls _ _ asks
    omega
  have further {outer inner : String × Cursor}
      (asks : Relation.TransGen (Asks rules config) outer inner) :
      outer.2.offset < inner.2.offset ∨
        outer.2.offset = inner.2.offset ∧ rank inner.1 < rank outer.1 := by
    induction asks with
    | single asks => exact next asks
    | tail _ asks ih =>
      have last := next asks
      omega
  intro pair _ again
  have lower := further again
  omega

private theorem defined_of_asks (asks : Relation.TransGen (Asks rules config) pair inner) :
    rules pair.1 ≠ [] := by
  obtain ⟨_, ⟨chosen, member, _⟩, _⟩ := Relation.TransGen.head'_iff.mp asks
  exact List.ne_nil_of_mem member

/-- Names and places bound the number of types within each other. -/
theorem Within.length_le (within : Within rules config text chain pair)
    (known : ∀ name, rules name ≠ [] → name ∈ names) :
    chain.length ≤ names.length * (Text.byteSize text + 1) := by
  let key (inner : String × Cursor) : String × Nat := (inner.1, inner.2.offset)
  have inside (inner) (member : inner ∈ chain) : inner.2.In text :=
    within.inside inner (List.mem_cons_of_mem _ member)
  -- By pigeonhole: the pairs differ, and there are not more names and offsets than that.
  have keys : (chain.map key).Nodup := by
    refine List.Nodup.map_on (fun a first b second same => ?_) (List.nodup_cons.mp within.distinct).2
    obtain ⟨name, offset⟩ := Prod.mk.inj same
    exact Prod.ext name ((inside a first).eq_of_offset (inside b second) offset)
  have bounded : chain.map key ⊆ names ×ˢ List.range (Text.byteSize text + 1) := by
    intro entry member
    obtain ⟨inner, found, rfl⟩ := List.mem_map.mp member
    have offset := (inside inner found).offset_le
    have defined := defined_of_asks (within.asked inner found)
    exact List.mem_product.mpr ⟨known _ defined, List.mem_range.mpr (by omega)⟩
  have count := (keys.subperm bounded).length_le
  rwa [List.length_map, List.length_product, List.length_range] at count

/-- The types that are being read ask for each other in turn, the outermost one first of all. -/
inductive Calls (rules : String → List (Alternative ε κ)) (config : Config) (text : List Char) :
    List (String × Cursor) → String × Cursor → Prop where
  | first {pair : String × Cursor} (inside : pair.2.In text) : Calls rules config text [] pair
  | inner {chain : List (String × Cursor)} {outer pair : String × Cursor}
      (before : Calls rules config text chain outer) (asks : Asks rules config outer pair) :
      Calls rules config text (outer :: chain) pair

theorem Calls.within (acyclic : NoLeftRecursion rules config text)
    (calls : Calls rules config text chain pair) : Within rules config text chain pair := by
  induction calls with
  | first inside => exact .alone inside
  | @inner chain outer pair _ asks ih =>
    have inside := ih.inside outer List.mem_cons_self
    exact ih.next (acyclic.noMutual rules config) asks
      fun same => acyclic outer inside (.single (same ▸ asks))

/-! ### Depth -/

/-- With more levels left than there are names and places unused, one more makes no difference. -/
theorem type_succ (noMutual : NoMutualLeftRecursion rules config text)
    (known : ∀ name, rules name ≠ [] → name ∈ names) {levels : Nat}
    (within : Within rules config text chain pair)
    (enough : names.length * (Text.byteSize text + 1) < levels + chain.length) :
    type rules config (levels + 1) pair.1 pair.2 = type rules config levels pair.1 pair.2 := by
  induction levels generalizing chain pair with
  | zero =>
    -- No level left would mean more types within each other than there are.
    have bound := within.length_le known
    omega
  | succ levels ih =>
    apply oneOf_congr (avoiding_sound (type_sound _))
    intro chosen member inner asked
    rw [avoiding, avoiding]
    split
    next => rfl
    next differs =>
      -- Both sides go one type deeper, and one level is gone.
      have deeper := within.next noMutual ⟨chosen, member, asked⟩
        fun same => differs ⟨congrArg Prod.fst same, congrArg Prod.snd same⟩
      exact ih deeper (by rw [List.length_cons]; omega)

/-- At this depth, a type is read by its alternatives in the types that it asks for. -/
theorem type_unfold (noMutual : NoMutualLeftRecursion rules config text)
    (known : ∀ name, rules name ≠ [] → name ∈ names) {levels : Nat}
    (enough : names.length * (Text.byteSize text + 1) < levels) {name : String} {place : Cursor}
    (inside : place.In text) :
    type rules config levels name place =
      oneOf config (avoiding name place (type rules config levels)) (rules name) place := by
  have alone : Within rules config text [] (name, place) := .alone inside
  exact (type_succ noMutual known alone enough).symm

/-! ### Without left recursion -/

theorem naive_eq_type (acyclic : NoLeftRecursion rules config text) (levels : Nat) (name : String)
    {place : Cursor} (inside : place.In text) :
    naive rules config levels name place = type rules config levels name place := by
  induction levels generalizing name place with
  | zero => rfl
  | succ levels ih =>
    refine (oneOf_congr (avoiding_sound (type_sound _)) ?_).symm
    rintro chosen member ⟨inner, there⟩ asked
    have asks : Asks rules config (name, place) (inner, there) := ⟨chosen, member, asked⟩
    -- The type that is cut is never asked for.
    have differs : ¬(inner = name ∧ there = place) := by
      rintro ⟨rfl, rfl⟩
      exact acyclic _ inside (.single asks)
    rw [avoiding, if_neg differs]
    exact (ih inner (asks.inside inside)).symm

theorem naive_sound (levels : Nat) : Sound rules config (naive rules config levels) := by
  induction levels with
  | zero => simp [Sound, naive]
  | succ levels ih => exact fun _ _ _ member => derives_of_mem_oneOf ih member

theorem naive_unfolds (acyclic : NoLeftRecursion rules config text)
    (known : ∀ name, rules name ≠ [] → name ∈ names) {levels : Nat}
    (enough : names.length * (Text.byteSize text + 1) < levels) :
    Unfolds rules config text (naive rules config levels) := by
  intro name place inside
  have alone : Within rules config text [] (name, place) := .alone inside
  have same := type_succ (acyclic.noMutual rules config) known alone enough
  rw [naive_eq_type acyclic levels name inside, ← same, ← naive_eq_type acyclic _ name inside]
  rfl

end SentenceGrammar.Matching
