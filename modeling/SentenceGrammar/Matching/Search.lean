import SentenceGrammar.Grammar.Config
import SentenceGrammar.Grammar.Registry
import SentenceGrammar.Matching.Failure
import SentenceGrammar.Matching.Reading

/-!
# The state of a search

A search through one text remembers the readings of each type at each place, and the furthest
failure.
-/
namespace SentenceGrammar.Matching

/-- What a search knows beforehand: the grammar, whether readings cut off by the end of the text
are wanted, and the types that are being read with the places where they start, outermost first. -/
structure Scope (ε κ : Type) where
  registry : Registry ε κ
  config : Config
  completing : Bool
  active : List (String × Nat) := []

/-- Types that are being read are compared by their names and offsets. -/
instance lawfulActive : LawfulBEq (String × Nat) := inferInstance

/-- What a search finds out on its way. -/
structure Progress (ε κ : Type) where
  /-- The readings of the types read so far, by name and place. -/
  known : List ((String × Nat) × TypeReadings ε κ) := []
  failure : Failure

abbrev Search (ε κ : Type) := StateM (Progress ε κ)

variable {ε κ : Type}

/-- Record that something would have been accepted at a place. -/
def expect (scope : Scope ε κ) (place : Cursor) (expected : Expected) : Search ε κ Unit :=
  modify fun progress =>
    { progress with
      failure := progress.failure.note (scope.active.map Prod.fst) place expected }

/-- The readings of a type at a place, if it was read there before. -/
def lookUp (name : String) (place : Cursor) : Search ε κ (Option (TypeReadings ε κ)) :=
  return (← get).known.lookup (name, place.offset)

/-- Remember the readings of a type at a place. -/
def remember (name : String) (place : Cursor) (readings : TypeReadings ε κ) : Search ε κ Unit :=
  modify fun progress =>
    { progress with known := ((name, place.offset), readings) :: progress.known }

/-- Only a search for completions keeps what the end of the text cut off. -/
def Scope.keep {α : Type} (scope : Scope ε κ) (cut : α) : List α :=
  if scope.completing then [cut] else []

end SentenceGrammar.Matching
