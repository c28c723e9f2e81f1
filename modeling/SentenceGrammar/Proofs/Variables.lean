import SentenceGrammar.Proofs.SharedNodes

/-!
# Variables below a node

A name that is looked up leads to a node below that has it. A child with the name comes before
everything that is nested deeper.
-/
namespace SentenceGrammar.Node

variable {ε κ : Type} {node : Node ε κ} {name : String}

theorem childrenAt_at? {path : Path} {below : Node ε κ} (here : node.at? path = some below) :
    ∀ entry ∈ childrenAt path below, node.at? entry.1 = some entry.2 := by
  intro entry mem
  obtain ⟨index, bound, rfl⟩ := List.mem_mapIdx.mp mem
  rw [at?_append, here, Option.bind_some, at?, List.getElem?_eq_getElem bound]
  rfl

theorem findBelow_at? (depth : Nat) : ∀ {level : List (Path × Node ε κ)},
    (∀ entry ∈ level, node.at? entry.1 = some entry.2) →
    ∀ {path : Path} {found : Node ε κ}, findBelow name depth level = some (path, found) →
      node.at? path = some found ∧ found.name = some name := by
  induction depth with
  | zero =>
    intro level listed path found search
    cases search
  | succ depth ih =>
    intro level listed path found search
    rw [findBelow] at search
    split at search
    next entry here =>
      cases search
      exact ⟨listed _ (List.mem_of_find?_eq_some here), by simpa using List.find?_some here⟩
    next =>
      refine ih (fun entry mem => ?_) search
      obtain ⟨⟨above, parent⟩, inLevel, mem⟩ := List.mem_flatMap.mp mem
      exact childrenAt_at? (listed _ inLevel) entry mem

/-- A variable is the name of a node below. -/
theorem find?_at? {path : Path} {found : Node ε κ} (search : node.find? name = some (path, found)) :
    node.at? path = some found ∧ found.name = some name :=
  findBelow_at? node.size (childrenAt_at? rfl) search

/-- The first child with the name is what the name stands for. -/
theorem find?_child {front back : List (Node ε κ)} {child : Node ε κ}
    (children : node.children = front ++ child :: back)
    (before : ∀ other ∈ front, other.name ≠ some name) (named : child.name = some name) :
    node.find? name = some ([front.length], child) := by
  have found {wanted : Path × Node ε κ → Bool}
      (byName : ∀ path other, wanted (path, other) = decide (other.name = some name)) :
      (childrenAt [] node).find? wanted = some ([front.length], child) := by
    rw [childrenAt, children, List.mapIdx_append, List.find?_append, List.find?_eq_none.mpr]
    · simp [byName, named]
    · intro entry mem
      obtain ⟨index, bound, rfl⟩ := List.mem_mapIdx.mp mem
      simpa [byName] using before _ (List.getElem_mem bound)
  obtain ⟨depth, size⟩ : ∃ depth, node.size = depth + 1 := by
    cases node with
    | mk kind name span text complete children => exact ⟨_, by rw [size, Nat.add_comm]⟩
  rw [find?, size, findBelow, found fun _ _ => rfl]

end SentenceGrammar.Node
