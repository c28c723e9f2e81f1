import SentenceGrammar.Tree.Node

/-!
# Looking up variables

A descendant is addressed by the child positions on the way to it. A name is looked up level by
level, so that a node's own placeholders hide those of the types nested in it.
-/
namespace SentenceGrammar.Node

variable {ε κ : Type}

/-- The child positions on the way from a node to a descendant. -/
abbrev Path := List Nat

/-- The descendant at a path. -/
def at? : Node ε κ → Path → Option (Node ε κ)
  | node, [] => some node
  | node, child :: rest => (node.children[child]?).bind fun below => below.at? rest

/-- The children of a node at the given path, each with its own path. -/
def childrenAt (path : Path) (node : Node ε κ) : List (Path × Node ε κ) :=
  node.children.mapIdx fun index child => (path ++ [index], child)

/-- Search the nodes of one level from left to right, then those of the next one. -/
def findBelow (name : String) : Nat → List (Path × Node ε κ) → Option (Path × Node ε κ)
  | 0, _ => none
  | depth + 1, level =>
    match level.find? fun (_, node) => node.name = some name with
    | some found => some found
    | none => findBelow name depth (level.flatMap fun (path, node) => childrenAt path node)

/-- The leftmost of the nearest proper descendants with the given name. A tree has fewer levels
than nodes. -/
def find? (node : Node ε κ) (name : String) : Option (Path × Node ε κ) :=
  findBelow name node.size (childrenAt [] node)

/-- The first child with the given name, and its position. -/
def child? (node : Node ε κ) (name : String) : Option (Nat × Node ε κ) :=
  (node.children.mapIdx fun index child => (index, child)).find? fun (_, child) =>
    child.name = some name

/-- One step on the way to a node: by a name to be looked up, or by a child position. -/
inductive Step where
  | named (name : String)
  | position (index : Nat)
  deriving DecidableEq, Repr

/-- Follow the steps from a node; the first one that leads nowhere is reported. -/
def follow (node : Node ε κ) : List Step → Except Step (Path × Node ε κ)
  | [] => .ok ([], node)
  | step :: rest =>
    let next := match step with
      | .named name => node.find? name
      | .position index => node.children[index]?.map fun child => ([index], child)
    match next with
    | none => .error step
    | some (path, below) =>
      (below.follow rest).map fun (further, target) => (path ++ further, target)

end SentenceGrammar.Node
