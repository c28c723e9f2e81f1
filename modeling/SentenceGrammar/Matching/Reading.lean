import SentenceGrammar.Tree.Node

/-!
# Readings

All the ways in which part of a grammar can be read from one place of the text. Two ways that stop
at the same place can be continued in the same manner, so only the preferred one is kept. Apart
from the whole readings there are those that the end of the text cut off.
-/
namespace SentenceGrammar.Matching

variable {ε κ : Type}

/-- Keep the elements whose place is not among those seen and is new in the list. -/
def keepNew {α : Type} (place : α → Nat) : List Nat → List α → List α
  | _, [] => []
  | seen, x :: rest =>
    if place x ∈ seen then keepNew place seen rest
    else x :: keepNew place (place x :: seen) rest

/-- A node and the place behind it. -/
structure Reading (ε κ : Type) where
  stop : Cursor
  node : Node ε κ

/-- The readings of one item of a pattern, in order of preference. -/
structure Readings (ε κ : Type) where
  whole : List (Reading ε κ) := []
  cut : List (Node ε κ) := []

/-- Consecutive nodes and the place behind them. -/
structure Chain (ε κ : Type) where
  stop : Cursor
  nodes : List (Node ε κ)

/-- The readings of a sequence of items, in order of preference. -/
structure Chains (ε κ : Type) where
  whole : List (Chain ε κ) := []
  cut : List (List (Node ε κ)) := []

/-- An alternative that was read, with the nodes of its items and the place behind them. -/
structure TypeReading (ε κ : Type) where
  stop : Cursor
  chosen : Alternative ε κ
  children : List (Node ε κ)

/-- The readings of a type or of the sentences, in order of preference. -/
structure TypeReadings (ε κ : Type) where
  whole : List (TypeReading ε κ) := []
  cut : List (Alternative ε κ × List (Node ε κ)) := []

/-- One chain for each place where a chain stops, the first one. -/
def firstPerStop (chains : List (Chain ε κ)) : List (Chain ε κ) :=
  keepNew (fun chain => chain.stop.offset) [] chains

/-- The chains with further nodes in front. -/
def Chains.after (nodes : List (Node ε κ)) (chains : Chains ε κ) : Chains ε κ :=
  ⟨chains.whole.map fun chain => ⟨chain.stop, nodes ++ chain.nodes⟩,
    chains.cut.map fun cut => nodes ++ cut⟩

end SentenceGrammar.Matching
