import SentenceGrammar.Evaluation.Memo

/-!
# Nodes that share their value

Paths lead to nodes, and two of them may lead to one node: its value is kept in one cell. A cell
says which node it belongs to, since its steps lead from the root to a node that is the same. So no
node lies below another one with its cell.
-/
namespace SentenceGrammar.Node

variable {ε κ σ : Type}

/-! ### Trees and paths -/

theorem at?_append (first second : Path) : (node : Node ε κ) →
    node.at? (first ++ second) = (node.at? first).bind fun below => below.at? second := by
  induction first with
  | nil => intro node; rfl
  | cons index first ih =>
    intro node
    simp only [List.cons_append, at?]
    cases node.children[index]? with
    | none => rfl
    | some child => exact ih child

theorem size_le_of_mem {child : Node ε κ} {children : List (Node ε κ)} (mem : child ∈ children) :
    child.size ≤ sizeAll children := by
  induction children with
  | nil => nomatch mem
  | cons first rest ih =>
    rw [sizeAll]
    rcases List.mem_cons.mp mem with rfl | mem
    · omega
    · have := ih mem
      omega

theorem size_child_lt {node child : Node ε κ} (mem : child ∈ node.children) :
    child.size < node.size := by
  cases node with
  | mk kind name span text complete children =>
    have := size_le_of_mem mem
    rw [size]
    simp only at this
    omega

theorem size_at?_le {path : Path} : {node below : Node ε κ} → node.at? path = some below →
    below.size ≤ node.size := by
  induction path with
  | nil => rintro node below ⟨⟩; exact Nat.le_refl _
  | cons index path ih =>
    intro node below found
    rw [at?] at found
    obtain ⟨child, atIndex, found⟩ := Option.bind_eq_some_iff.mp found
    have := size_child_lt (List.mem_of_getElem? atIndex)
    have := ih found
    omega

/-! ### Cells and their nodes -/

/-- The node that a cell belongs to. -/
def inCell? (root : Node ε κ) (cell : Cell) : Option (Node ε κ) := root.at? cell.steps.reverse

section

variable {root : Node ε κ}

theorem inCell?_child {cell : Cell} {node child : Node ε κ} {index : Nat} (place : Nat)
    (placed : root.inCell? cell = some node) (atIndex : node.children[index]? = some child) :
    root.inCell? ⟨place, index :: cell.steps⟩ = some child := by
  rw [inCell?, List.reverse_cons, at?_append, ← inCell?, placed]
  simp [at?, atIndex]

theorem emptyPart?_node {place index : Nat} {node child : Node ε κ} {part : EmptyPart ε κ}
    (found : emptyPart? place node index child = some part) : part.node = child := by
  unfold emptyPart? at found
  split at found
  · split at found
    · cases found
    · cases found; rfl
  · cases found

mutual

theorem emptyParts_placed {cell : Cell} : {node : Node ε κ} → root.inCell? cell = some node →
    ∀ entry ∈ emptyParts cell node, root.inCell? entry.2 = some entry.1.node
  | ⟨kind, name, span, covered, complete, children⟩, placed => by
    rw [emptyParts]
    exact emptyPartsFrom_placed placed _ [] children rfl

theorem emptyPartsFrom_placed {cell : Cell} {node : Node ε κ}
    (placed : root.inCell? cell = some node) (place : Nat) :
    (before children : List (Node ε κ)) → node.children = before ++ children →
      ∀ entry ∈ emptyPartsFrom cell node before.length place children,
        root.inCell? entry.2 = some entry.1.node
  | _, [], _ => nofun
  | before, child :: rest, split => by
    have atIndex : node.children[before.length]? = some child := by simp [split]
    have here := inCell?_child place placed atIndex
    have others := emptyPartsFrom_placed placed (place + child.covered.utf8ByteSize)
      (before ++ [child]) rest (by simp [split])
    rw [List.length_append] at others
    intro entry mem
    simp only [emptyPartsFrom, List.mem_append, List.mem_map, Option.mem_toList] at mem
    obtain ⟨part, found, rfl⟩ | mem | mem := mem
    · rw [emptyPart?_node found]
      exact here
    · exact emptyParts_placed here entry mem
    · exact others entry mem

end

/-- The empty parts of a tree that share their values. -/
def sharedParts (root : Node ε κ) : List (EmptyPart ε κ × Cell) := emptyParts {} root

theorem sharedParts_placed : ∀ entry ∈ root.sharedParts, root.inCell? entry.2 = some entry.1.node :=
  emptyParts_placed rfl

end

/-! ### Spots -/

variable [DecidableEq ε] [DecidableEq κ]

/-- A node of a tree with the cell that its value is kept in. -/
structure Spot (ε κ : Type) where
  cell : Cell
  node : Node ε κ

namespace Spot

variable (shared : List (EmptyPart ε κ × Cell)) {spot lower : Spot ε κ}

/-- Where the children of `parent` have their values, from one on that starts at `place`. -/
def childrenFrom (cell : Cell) (parent : Node ε κ) (index place : Nat) :
    List (Node ε κ) → List (Spot ε κ)
  | [] => []
  | child :: rest =>
    ⟨childCell shared cell parent index place child, child⟩ ::
      childrenFrom cell parent (index + 1) (place + child.covered.utf8ByteSize) rest

def children (spot : Spot ε κ) : List (Spot ε κ) :=
  childrenFrom shared spot.cell spot.node 0 spot.cell.place spot.node.children

def at? : Spot ε κ → Path → Option (Spot ε κ)
  | spot, [] => some spot
  | spot, index :: rest => ((spot.children shared)[index]?).bind fun child => child.at? rest

/-- The plan for the value of a node. -/
def plan (program : ε → Node ε κ → Program σ) (spot : Spot ε κ) : Plan σ :=
  planIn shared program spot.cell spot.node

variable {shared} {program : ε → Node ε κ → Program σ}

theorem childrenFrom_nodes (cell : Cell) (parent : Node ε κ) (children : List (Node ε κ)) :
    ∀ index place, (childrenFrom shared cell parent index place children).map node = children := by
  induction children with
  | nil => intro index place; rfl
  | cons child rest ih => intro index place; simp only [childrenFrom, List.map_cons, ih]

variable (shared) in
theorem children_nodes (spot : Spot ε κ) : (spot.children shared).map node = spot.node.children :=
  childrenFrom_nodes _ _ _ _ _

/-- Below any node that is no alternative each child has a cell of its own. -/
theorem childrenFrom_steps {cell : Cell} {parent : Node ε κ} (alone : parent.alternative? = none)
    {child : Spot ε κ} (children : List (Node ε κ)) : ∀ {index place i : Nat},
    (childrenFrom shared cell parent index place children)[i]? = some child →
      child.cell.steps = (index + i) :: cell.steps := by
  induction children with
  | nil => intro index place i found; nomatch found
  | cons first rest ih =>
    intro index place i found
    cases i with
    | zero =>
      cases found
      simp [childCell, emptyPart?, alone]
    | succ i =>
      rw [ih found, Nat.add_assoc, Nat.add_comm 1]

theorem plansFrom_eq (cell : Cell) (parent : Node ε κ) (children : List (Node ε κ)) :
    ∀ index place, plansFrom shared program cell parent index place children =
      (childrenFrom shared cell parent index place children).map (plan shared program) := by
  induction children with
  | nil => intro index place; rfl
  | cons child rest ih => intro index place; rw [plansFrom, childrenFrom, List.map_cons, ih, plan]

theorem plan_eq (spot : Spot ε κ) : spot.plan shared program =
    .node (Memo.once spot.cell
      ((task program spot.node).run ((spot.children shared).map (plan shared program))))
      ((spot.children shared).map (plan shared program)) := by
  cases spot with
  | mk cell node =>
    cases node with
    | mk kind name span text complete children =>
      rw [plan, planIn, plansFrom_eq]
      rfl

theorem plan_parts (spot : Spot ε κ) :
    (spot.plan shared program).parts = (spot.children shared).map (plan shared program) := by
  rw [plan_eq, Plan.parts]

variable (shared) in
theorem plan_at? (path : Path) : ∀ spot : Spot ε κ, (spot.plan shared program).at? path =
    (spot.at? shared path).map (plan shared program) := by
  induction path with
  | nil => intro spot; rfl
  | cons index path ih =>
    intro spot
    rw [Plan.at?, at?, plan_parts, List.getElem?_map]
    cases (spot.children shared)[index]? with
    | none => rfl
    | some child => exact ih child

variable (shared) in
theorem at?_node (path : Path) : ∀ spot : Spot ε κ,
    (spot.at? shared path).map node = spot.node.at? path := by
  induction path with
  | nil => intro spot; rfl
  | cons index path ih =>
    intro spot
    rw [at?, Node.at?, ← children_nodes shared, List.getElem?_map]
    cases (spot.children shared)[index]? with
    | none => rfl
    | some child => exact ih child

theorem at?_append (first second : Path) : (spot : Spot ε κ) → spot.at? shared (first ++ second) =
    (spot.at? shared first).bind fun below => below.at? shared second := by
  induction first with
  | nil => intro spot; rfl
  | cons index first ih =>
    intro spot
    simp only [List.cons_append, at?]
    cases (spot.children shared)[index]? with
    | none => rfl
    | some child => exact ih child

/-- The steps of the cell lead to the node. -/
def PlacedIn (root : Node ε κ) (spot : Spot ε κ) : Prop := root.inCell? spot.cell = some spot.node

variable {root : Node ε κ}

omit [DecidableEq ε] [DecidableEq κ] in
theorem PlacedIn.unique {other : Spot ε κ} (placed : spot.PlacedIn root)
    (otherPlaced : other.PlacedIn root) (same : spot.cell = other.cell) : spot = other := by
  cases spot with
  | mk cell node =>
    cases other with
    | mk otherCell otherNode =>
      obtain rfl : cell = otherCell := same
      cases placed.symm.trans otherPlaced
      rfl

theorem childCell_placed {cell : Cell} {node child : Node ε κ} {index : Nat} (place : Nat)
    (placed : root.inCell? cell = some node) (atIndex : node.children[index]? = some child) :
    root.inCell? (childCell root.sharedParts cell node index place child) = some child := by
  rw [childCell]
  cases found : (emptyPart? cell.place node index child).bind fun part =>
      root.sharedParts.lookup part with
  | none => exact inCell?_child place placed atIndex
  | some first =>
    obtain ⟨part, isPart, found⟩ := Option.bind_eq_some_iff.mp found
    obtain ⟨front, back, split, -⟩ := List.lookup_eq_some_iff.mp found
    have mem : (part, first) ∈ root.sharedParts := by simp [split]
    rw [Option.getD_some, sharedParts_placed _ mem, emptyPart?_node isPart]

theorem childrenFrom_placed {cell : Cell} {node : Node ε κ}
    (placed : root.inCell? cell = some node) (children : List (Node ε κ)) :
    ∀ (before : List (Node ε κ)) (place : Nat), node.children = before ++ children →
      ∀ child ∈ childrenFrom root.sharedParts cell node before.length place children,
        child.PlacedIn root := by
  induction children with
  | nil => intro before place split child mem; nomatch mem
  | cons first rest ih =>
    intro before place split child mem
    have others := ih (before ++ [first]) (place + first.covered.utf8ByteSize) (by simp [split])
    rw [List.length_append] at others
    rcases List.mem_cons.mp mem with rfl | mem
    · exact childCell_placed place placed (by simp [split])
    · exact others child mem

theorem PlacedIn.child {child : Spot ε κ} (placed : spot.PlacedIn root)
    (mem : child ∈ spot.children root.sharedParts) : child.PlacedIn root :=
  childrenFrom_placed placed _ [] _ rfl child mem

theorem PlacedIn.below {path : Path} : {spot lower : Spot ε κ} → spot.PlacedIn root →
    spot.at? root.sharedParts path = some lower → lower.PlacedIn root := by
  induction path with
  | nil => rintro spot lower placed ⟨⟩; exact placed
  | cons index path ih =>
    intro spot lower placed found
    obtain ⟨child, atIndex, found⟩ := Option.bind_eq_some_iff.mp found
    exact ih (placed.child (List.mem_of_getElem? atIndex)) found

/-- What lies properly below a spot is smaller. -/
theorem size_below_lt {index : Nat} {path : Path}
    (found : spot.at? shared (index :: path) = some lower) : lower.node.size < spot.node.size := by
  have node := at?_node shared (index :: path) spot
  rw [found, Option.map_some, Node.at?] at node
  obtain ⟨child, atIndex, found⟩ := Option.bind_eq_some_iff.mp node.symm
  have := size_child_lt (List.mem_of_getElem? atIndex)
  have := size_at?_le found
  omega

end Spot

/-! ### The spots of a tree -/

variable {root : Node ε κ}

/-- The spot of the whole tree. -/
def rootSpot (root : Node ε κ) : Spot ε κ := ⟨{}, root⟩

omit [DecidableEq ε] [DecidableEq κ] in
theorem rootSpot_placed : root.rootSpot.PlacedIn root := rfl

/-- The spot of the node at a path. -/
def spotAt? (root : Node ε κ) (path : Path) : Option (Spot ε κ) :=
  root.rootSpot.at? root.sharedParts path

theorem spotAt?_node (path : Path) : (root.spotAt? path).map Spot.node = root.at? path :=
  Spot.at?_node root.sharedParts path _

theorem spotAt?_placed {path : Path} {spot : Spot ε κ} (found : root.spotAt? path = some spot) :
    spot.PlacedIn root :=
  Spot.PlacedIn.below rootSpot_placed found

theorem plan_at? (program : ε → Node ε κ → Program σ) (path : Path) :
    (root.plan program).at? path =
      (root.spotAt? path).map (Spot.plan root.sharedParts program) :=
  Spot.plan_at? root.sharedParts path root.rootSpot

end Node
end SentenceGrammar
