import SentenceGrammar.Proofs.Descendants
import SentenceGrammar.Proofs.MemoizedEvaluation
import SentenceGrammar.Proofs.ReadParts
import SentenceGrammar.Proofs.SoundChecks
import SentenceGrammar.Proofs.Variables

/-!
# The nearest variable

A name stands for the nearest node below that has it, and for the leftmost one if several are as
near. The levels of a tree are searched one after the other, and each of them is ordered from left
to right. A queue to which the children of every node are added behind all others leads to the same
node.

## Main result

`find?_looksUp`: what a name stands for at any node of a parse tree.
-/
namespace SentenceGrammar

variable {ε κ σ : Type}

/-- Every placeholder of a pattern names the node that was read at it. -/
theorem Matching.DerivesItems.exists_named {rules : String → List (Alternative ε κ)}
    {config : Config} {items : List Item} {start stop : Cursor} {nodes : List (Node ε κ)}
    (derived : DerivesItems rules config items start stop nodes) {slot : Placeholder}
    (listed : Item.placeholder slot ∈ items) : ∃ node ∈ nodes, node.name = some slot.name := by
  obtain ⟨node, member, shows⟩ :=
    exists_of_forall₂ derived.shows.flip (List.mem_map.mpr ⟨_, listed, rfl⟩)
  exact ⟨node, member, Shows.name_eq shows⟩

namespace Node

variable {node : Node ε κ} {name : String}

/-! ### Paths and levels -/

/-- Where two paths part, the first one turns further to the left. -/
def Path.LeftOf : Path → Path → Prop
  | here :: first, there :: second => here < there ∨ here = there ∧ Path.LeftOf first second
  | _, _ => False

namespace Path

variable {first second : Path}

theorem LeftOf.append (left : first.LeftOf second) (behind further : Path) :
    LeftOf (first ++ behind) (second ++ further) := by
  induction first generalizing second with
  | nil => exact left.elim
  | cons here first ih =>
    cases second with
    | nil => exact left.elim
    | cons there second => exact left.imp_right fun ⟨same, left⟩ => ⟨same, ih left⟩

theorem leftOf_siblings (path : Path) {low high : Nat} (less : low < high) :
    LeftOf (path ++ [low]) (path ++ [high]) := by
  induction path with
  | nil => exact .inl less
  | cons here path ih => exact .inr ⟨rfl, ih⟩

theorem LeftOf.asymm (left : first.LeftOf second) : ¬second.LeftOf first := by
  induction first generalizing second with
  | nil => exact left.elim
  | cons here first ih =>
    cases second with
    | nil => exact left.elim
    | cons there second =>
      rintro (less | ⟨same, right⟩)
      · rcases left with other | ⟨same, -⟩ <;> omega
      · rcases left with other | ⟨-, left⟩
        · omega
        · exact ih left right

/-- The first path leads less far down, or as far and further to the left. -/
def Before (first second : Path) : Prop :=
  first.length < second.length ∨ first.length = second.length ∧ first.LeftOf second

theorem Before.asymm (before : first.Before second) : ¬second.Before first := by
  rintro (less | ⟨same, right⟩)
  · rcases before with more | ⟨same, -⟩ <;> omega
  · rcases before with more | ⟨-, left⟩
    · omega
    · exact left.asymm right

end Path

theorem mem_childrenAt {path : Path} {entry : Path × Node ε κ} : entry ∈ childrenAt path node ↔
    ∃ index, entry.1 = path ++ [index] ∧ node.children[index]? = some entry.2 := by
  obtain ⟨place, child⟩ := entry
  rw [childrenAt, List.mem_mapIdx]
  constructor
  · rintro ⟨index, bound, same⟩
    cases same
    exact ⟨index, rfl, List.getElem?_eq_getElem bound⟩
  · rintro ⟨index, rfl, atIndex⟩
    obtain ⟨bound, rfl⟩ := List.getElem?_eq_some_iff.mp atIndex
    exact ⟨index, bound, rfl⟩

theorem length_lt_of_at? {path : Path} : {node below : Node ε κ} → node.at? path = some below →
    path.length < node.size := by
  induction path with
  | nil =>
    rintro ⟨⟩ below -
    rw [size]
    exact Nat.lt_of_lt_of_le Nat.zero_lt_one (Nat.le_add_right ..)
  | cons index path ih =>
    intro node below found
    obtain ⟨child, atIndex, found⟩ := Option.bind_eq_some_iff.mp found
    have smaller := size_child_lt (List.mem_of_getElem? atIndex)
    exact Nat.lt_of_le_of_lt (ih found) smaller

/-- The descendants that are so many levels further down, from left to right. -/
def level (node : Node ε κ) : Nat → List (Path × Node ε κ)
  | 0 => [([], node)]
  | depth + 1 => (node.level depth).flatMap fun (path, below) => childrenAt path below

theorem level_one (node : Node ε κ) : node.level 1 = childrenAt [] node := by simp [level]

theorem mem_level {depth : Nat} {entry : Path × Node ε κ} : entry ∈ node.level depth ↔
    entry.1.length = depth ∧ node.at? entry.1 = some entry.2 := by
  induction depth generalizing entry with
  | zero =>
    obtain ⟨path, below⟩ := entry
    rw [level, List.mem_singleton, Prod.mk.injEq, List.length_eq_zero_iff]
    constructor
    · rintro ⟨rfl, rfl⟩
      exact ⟨rfl, rfl⟩
    · rintro ⟨rfl, found⟩
      exact ⟨rfl, (Option.some.inj found).symm⟩
  | succ depth ih =>
    simp only [level, List.mem_flatMap, mem_childrenAt, ih]
    constructor
    · rintro ⟨upper, ⟨rfl, found⟩, index, split, atIndex⟩
      refine ⟨by simp [split], ?_⟩
      rw [split, at?_append, found]
      simp [at?, atIndex]
    · rintro ⟨size, found⟩
      -- The last step of the path leads from one level to the next.
      obtain ⟨above, index, split⟩ : ∃ above index, entry.1 = above ++ [index] := by
        rcases List.eq_nil_or_concat entry.1 with empty | ⟨above, index, split⟩
        · simp [empty] at size
        · exact ⟨above, index, by simpa using split⟩
      rw [split, at?_append] at found
      obtain ⟨upper, above', below⟩ := Option.bind_eq_some_iff.mp found
      refine ⟨(above, upper), ⟨by simpa [split] using size, above'⟩, index, split, ?_⟩
      simpa [at?] using below

/-- A level is ordered from left to right. -/
theorem level_pairwise (node : Node ε κ) (depth : Nat) :
    (node.level depth).Pairwise fun entry other => entry.1.LeftOf other.1 := by
  induction depth with
  | zero => exact List.pairwise_singleton _ _
  | succ depth ih =>
    rw [level, List.pairwise_flatMap]
    refine ⟨fun upper _ => ?_, ih.imp fun {upper other} left entry mem entry' mem' => ?_⟩
    · change (childrenAt upper.1 upper.2).Pairwise _
      rw [childrenAt, List.pairwise_iff_getElem]
      intro low high _ _ less
      simpa using Path.leftOf_siblings upper.1 less
    · obtain ⟨index, same, -⟩ := mem_childrenAt.mp mem
      obtain ⟨index', same', -⟩ := mem_childrenAt.mp mem'
      rw [same, same']
      exact left.append _ _

theorem level_of_size_le {depth : Nat} (deep : node.size ≤ depth) : node.level depth = [] := by
  rw [List.eq_nil_iff_forall_not_mem]
  intro entry mem
  obtain ⟨rfl, found⟩ := mem_level.mp mem
  exact Nat.not_le.mpr (length_lt_of_at? found) deep

/-! ### The search through the levels -/

/-- From one level on, the search finds what is nearest. -/
theorem findBelow_before {depth least : Nat} {path : Path} {found : Node ε κ}
    (search : findBelow name depth (node.level least) = some (path, found)) :
    least ≤ path.length ∧ node.at? path = some found ∧ found.name = some name ∧
      ∀ other below, least ≤ other.length → node.at? other = some below →
        below.name = some name → other ≠ path → path.Before other := by
  induction depth generalizing least with
  | zero => cases search
  | succ depth ih =>
    rw [findBelow] at search
    split at search
    next entry here =>
      cases search
      obtain ⟨isNamed, front, back, split, others⟩ := List.find?_eq_some_iff_append.mp here
      have listed := mem_level.mp (List.mem_of_find?_eq_some here)
      obtain ⟨rfl, found⟩ := listed
      refine ⟨Nat.le_refl _, found, by simpa using isNamed, ?_⟩
      intro other below deep there named elsewhere
      rcases Nat.lt_or_eq_of_le deep with less | same
      · exact .inl less
      have mem : (other, below) ∈ node.level path.length := mem_level.mpr ⟨same.symm, there⟩
      have ordered := node.level_pairwise path.length
      -- In front of the node none has the name, and what is behind it is further to the right.
      rw [split] at mem ordered
      rcases List.mem_append.mp mem with before | mem
      · simpa [named] using others _ before
      rcases List.mem_cons.mp mem with same | behind
      · cases same
        exact absurd rfl elsewhere
      · have behind := (List.pairwise_cons.mp (List.pairwise_append.mp ordered).2.1).1 _ behind
        exact .inr ⟨same, behind⟩
    next nowhere =>
      have further : findBelow name depth (node.level (least + 1)) = some (path, found) := search
      obtain ⟨deeper, found, named, first⟩ := ih further
      refine ⟨Nat.le_of_succ_le deeper, found, named, fun other below deep there isNamed => ?_⟩
      refine first other below (Nat.lt_of_le_of_ne deep ?_) there isNamed
      -- None on this level has the name, so the other one is further down as well.
      rintro rfl
      have mem : (other, below) ∈ node.level other.length := mem_level.mpr ⟨rfl, there⟩
      simpa [isNamed] using List.find?_eq_none.mp nowhere _ mem

theorem findBelow_none {depth least : Nat}
    (search : findBelow name depth (node.level least) = none) {path : Path} {below : Node ε κ}
    (deep : least ≤ path.length) (bound : path.length < least + depth)
    (found : node.at? path = some below) : below.name ≠ some name := by
  induction depth generalizing least with
  | zero => omega
  | succ depth ih =>
    rw [findBelow] at search
    split at search
    · cases search
    next nowhere =>
      rcases Nat.lt_or_eq_of_le deep with less | rfl
      · have deeper : findBelow name depth (node.level (least + 1)) = none := search
        exact ih deeper less (by omega)
      · have mem : (path, below) ∈ node.level path.length := mem_level.mpr ⟨rfl, found⟩
        simpa using List.find?_eq_none.mp nowhere _ mem

variable (node name) in
/-- Of the descendants of a node that have a name, the one at the path comes before all others. -/
structure Nearest (path : Path) (found : Node ε κ) : Prop where
  proper : path ≠ []
  here : node.at? path = some found
  named : found.name = some name
  first : ∀ other below, other ≠ [] → node.at? other = some below → below.name = some name →
    other ≠ path → path.Before other

theorem Nearest.unique {path other : Path} {found below : Node ε κ}
    (nearest : node.Nearest name path found) (too : node.Nearest name other below) :
    other = path ∧ below = found := by
  have same : other = path := by
    by_contra elsewhere
    have before := nearest.first other below too.proper too.here too.named elsewhere
    exact before.asymm
      (too.first path found nearest.proper nearest.here nearest.named (Ne.symm elsewhere))
  subst same
  exact ⟨rfl, Option.some.inj (too.here.symm.trans nearest.here)⟩

theorem nearest_of_find? {path : Path} {found : Node ε κ}
    (search : node.find? name = some (path, found)) : node.Nearest name path found := by
  rw [find?, ← level_one] at search
  obtain ⟨deep, here, named, first⟩ := findBelow_before search
  refine ⟨List.ne_nil_of_length_pos deep, here, named, fun other below proper => ?_⟩
  exact first other below (List.length_pos_iff.mpr proper)

theorem find?_eq_none_iff : node.find? name = none ↔
    ∀ path below, path ≠ [] → node.at? path = some below → below.name ≠ some name := by
  constructor
  · intro search path below proper found
    rw [find?, ← level_one] at search
    refine findBelow_none search (List.length_pos_iff.mpr proper) ?_ found
    exact Nat.lt_of_lt_of_le (length_lt_of_at? found) (Nat.le_add_left ..)
  · intro nowhere
    cases search : node.find? name with
    | none => rfl
    | some entry =>
      have nearest := nearest_of_find? search
      exact absurd nearest.named (nowhere _ _ nearest.proper nearest.here)

theorem find?_eq_some_iff {path : Path} {found : Node ε κ} :
    node.find? name = some (path, found) ↔ node.Nearest name path found := by
  refine ⟨nearest_of_find?, fun nearest => ?_⟩
  cases search : node.find? name with
  | none => exact absurd nearest.named (find?_eq_none_iff.mp search _ _ nearest.proper nearest.here)
  | some entry =>
    obtain ⟨rfl, rfl⟩ := nearest.unique (nearest_of_find? search)
    rfl

theorem child?_first {index : Nat} {child : Node ε κ}
    (search : node.child? name = some (index, child)) :
    node.children[index]? = some child ∧ child.name = some name ∧
      ∀ i other, node.children[i]? = some other → other.name = some name → index ≤ i := by
  rw [child?, List.find?_eq_some_iff_getElem] at search
  obtain ⟨isNamed, i, bound, same, before⟩ := search
  rw [List.getElem_mapIdx, Prod.mk.injEq] at same
  obtain ⟨rfl, rfl⟩ := same
  refine ⟨List.getElem?_eq_getElem _, by simpa using isNamed, fun j other atIndex named => ?_⟩
  by_contra less
  obtain ⟨_, rfl⟩ := List.getElem?_eq_some_iff.mp atIndex
  simpa [named] using before j (Nat.lt_of_not_le less)

/-- The first child with a name is nearer than what is nested deeper. -/
theorem find?_of_child? {index : Nat} {child : Node ε κ}
    (search : node.child? name = some (index, child)) :
    node.find? name = some ([index], child) := by
  obtain ⟨atIndex, named, first⟩ := child?_first search
  refine find?_eq_some_iff.mpr ⟨List.cons_ne_nil _ _, by simp [at?, atIndex], named, ?_⟩
  intro other below proper found isNamed elsewhere
  obtain ⟨i, rest, rfl⟩ := List.exists_cons_of_ne_nil proper
  cases rest with
  | nil =>
    have here : node.children[i]? = some below := by simpa [at?] using found
    have differs : index ≠ i := fun same => elsewhere (congrArg (fun i => [i]) same.symm)
    exact .inr ⟨rfl, .inl (Nat.lt_of_le_of_ne (first i below here isNamed) differs)⟩
  | cons j rest => exact .inl (Nat.succ_lt_succ (Nat.zero_lt_succ _))

/-! ### The queue -/

theorem sizeAll_childrenAt (path : Path) (node : Node ε κ) :
    sizeAll ((childrenAt path node).map Prod.snd) < node.size := by
  have nodes : (childrenAt path node).map Prod.snd = node.children :=
    List.ext_getElem (by simp [childrenAt]) (by simp [childrenAt])
  cases node
  rw [nodes, size]
  exact Nat.lt_add_of_pos_left Nat.zero_lt_one

/-- The queue from the front: a node with the name, or else on with its children at the end. -/
def firstQueued (name : String) : List (Path × Node ε κ) → Option (Path × Node ε κ)
  | [] => none
  | (path, node) :: rest =>
    if node.name = some name then some (path, node)
    else firstQueued name (rest ++ childrenAt path node)
termination_by queue => sizeAll (queue.map Prod.snd)
decreasing_by
  have smaller := sizeAll_childrenAt path node
  simp only [List.map_append, sizeAll_append, List.map_cons, sizeAll]
  omega

/-- While one level is taken from the queue, the next one is put in behind it. -/
theorem firstQueued_append (now later : List (Path × Node ε κ)) :
    firstQueued name (now ++ later) =
      match now.find? fun entry => entry.2.name = some name with
      | some found => some found
      | none => firstQueued name (later ++ now.flatMap fun entry => childrenAt entry.1 entry.2) := by
  induction now generalizing later with
  | nil => simp
  | cons entry now ih =>
    obtain ⟨path, below⟩ := entry
    rw [List.cons_append, firstQueued, List.find?_cons]
    by_cases named : below.name = some name
    · simp [named]
    · rw [if_neg named, List.append_assoc, ih]
      simp [named]

theorem findBelow_eq_firstQueued {depth least : Nat} (deep : node.size ≤ least + depth) :
    findBelow name depth (node.level least) = firstQueued name (node.level least) := by
  induction depth generalizing least with
  | zero => rw [level_of_size_le (show node.size ≤ least from deep), findBelow, firstQueued]
  | succ depth ih =>
    have step : firstQueued name (node.level least ++ []) = _ := firstQueued_append _ _
    rw [List.append_nil] at step
    rw [findBelow, step]
    cases (node.level least).find? fun entry => entry.2.name = some name with
    | some found => rfl
    | none =>
      have deeper : node.size ≤ least + 1 + depth := by omega
      exact ih deeper

/-- Search by levels is search with a queue. -/
theorem find?_eq_firstQueued (node : Node ε κ) (name : String) :
    node.find? name = firstQueued name (childrenAt [] node) := by
  rw [find?, ← level_one]
  exact findBelow_eq_firstQueued (Nat.le_add_left ..)

end Node

/-! ### The order of the text -/

section

variable {start stop : Cursor} {nodes : List (Node ε κ)}

theorem Tiles.offset_le (tiles : Tiles start stop nodes) : start.offset ≤ stop.offset := by
  induction tiles with
  | nil => exact Nat.le_refl _
  | cons _ passes _ ih => exact passes.offset_le.trans ih

/-- Each node lies between the two places that all of them fill. -/
theorem Tiles.within (tiles : Tiles start stop nodes) {index : Nat} {node : Node ε κ}
    (atIndex : nodes[index]? = some node) :
    (start.spanTo stop).start ≤ node.span.start ∧ node.span.stop ≤ (start.spanTo stop).stop := by
  induction tiles generalizing index with
  | nil => simp at atIndex
  | cons span passes rest ih =>
    have before := passes.offset_le
    have behind := rest.offset_le
    cases index with
    | zero =>
      cases atIndex
      simp only [span, Cursor.spanTo, Span.ofOffsets]
      omega
    | succ index =>
      have := ih (by simpa using atIndex)
      simp only [Cursor.spanTo, Span.ofOffsets] at this ⊢
      omega

/-- Of two nodes side by side, the first one ends before the second one begins. -/
theorem Tiles.ordered (tiles : Tiles start stop nodes) {low high : Nat} {first second : Node ε κ}
    (less : low < high) (atLow : nodes[low]? = some first) (atHigh : nodes[high]? = some second) :
    first.span.stop ≤ second.span.start := by
  induction tiles generalizing low high with
  | nil => simp at atLow
  | cons span passes rest ih =>
    obtain ⟨high, rfl⟩ := Nat.exists_eq_add_one_of_ne_zero (Nat.ne_zero_of_lt less)
    cases low with
    | zero =>
      cases atLow
      -- The second one is among those that fill what the first one leaves.
      have := (rest.within (by simpa using atHigh)).1
      simp only [span, Cursor.spanTo, Span.ofOffsets] at this ⊢
      omega
    | succ low => exact ih (Nat.lt_of_succ_lt_succ less) (by simpa using atLow) (by simpa using atHigh)

end

namespace Node

/-- The children of every node from this one on fill what the node covers. -/
def Gapless (node : Node ε κ) : Prop := ∀ below : Node ε κ, below.Below node → below.Filled

theorem Gapless.child {node child : Node ε κ} (gapless : node.Gapless) (listed : child ∈ node.children) :
    child.Gapless := fun _ below => gapless _ (below_iff.mpr (.inr ⟨child, listed, below⟩))

/-- What lies below a node lies within its span. -/
theorem Gapless.within {path : Path} : {node below : Node ε κ} → node.Gapless →
    node.at? path = some below →
      node.span.start ≤ below.span.start ∧ below.span.stop ≤ node.span.stop := by
  induction path with
  | nil => rintro node _ - ⟨⟩; exact ⟨Nat.le_refl _, Nat.le_refl _⟩
  | cons index path ih =>
    intro node below gapless found
    obtain ⟨child, atIndex, found⟩ := Option.bind_eq_some_iff.mp found
    have listed := List.mem_of_getElem? atIndex
    obtain ⟨start, stop, around, inside⟩ := gapless node .refl (List.ne_nil_of_mem listed)
    have within := inside.within atIndex
    have further := ih (gapless.child listed) found
    cases around with
    | cons span _ rest =>
      cases rest
      rw [span]
      exact ⟨within.1.trans further.1, further.2.trans within.2⟩

/-- A node further to the left ends before the other one begins. -/
theorem Gapless.ordered {first : Path} : {node one other : Node ε κ} → {second : Path} → node.Gapless →
    first.LeftOf second → node.at? first = some one → node.at? second = some other →
      one.span.stop ≤ other.span.start := by
  induction first with
  | nil => exact fun _ left => left.elim
  | cons here first ih =>
    rintro node one other (_ | ⟨there, second⟩) gapless left found foundToo
    · exact left.elim
    obtain ⟨child, atHere, found⟩ := Option.bind_eq_some_iff.mp found
    obtain ⟨sibling, atThere, foundToo⟩ := Option.bind_eq_some_iff.mp foundToo
    have listed := List.mem_of_getElem? atHere
    -- The paths part here, or they lead on through the same child.
    rcases left with less | ⟨rfl, left⟩
    · obtain ⟨start, stop, -, inside⟩ := gapless node .refl (List.ne_nil_of_mem listed)
      calc one.span.stop ≤ child.span.stop := ((gapless.child listed).within found).2
        _ ≤ sibling.span.start := inside.ordered less atHere atThere
        _ ≤ other.span.start :=
          ((gapless.child (List.mem_of_getElem? atThere)).within foundToo).1
    · obtain rfl := Option.some.inj (atHere.symm.trans atThere)
      exact ih (gapless.child listed) left found foundToo

/-! ### Variables of parse trees -/

section

variable [DecidableEq ε] [DecidableEq κ] {program : ε → Node ε κ → Program σ} {root node : Node ε κ}
  {name : String} {top path : Path}

theorem evaluateAt_found {found : Node ε κ} (here : root.at? top = some node)
    (search : node.find? name = some (path, found)) :
    root.evaluateAt program top name = root.valueAt program (top ++ path) := by
  simp only [evaluateAt, evaluateBy, here, search, valueAt]

theorem evaluateAt_unknown (here : root.at? top = some node) (search : node.find? name = none) :
    root.evaluateAt program top name =
      pure (.error (.unknownVariable name node.text node.span)) := by
  simp only [evaluateAt, evaluateBy, here, search]

/-- Whenever a node is evaluated for the first time, its outcome is kept. -/
theorem valueAt_kept {found : Node ε κ} (here : root.at? path = some found) (state : σ) :
    ((root.valueAt program path).run ⟨[], state⟩).2.outcomes ≠ [] := by
  obtain ⟨spot, listed, rfl⟩ := Option.map_eq_some_iff.mp ((root.spotAt?_node path).trans here)
  rw [valueAt, valueBy_plan listed, Spot.value_new rfl]
  exact List.cons_ne_nil _ _

end

/-- What a name stands for at a node of a tree. -/
structure LooksUp [DecidableEq ε] [DecidableEq κ] (registry : Registry ε κ) (config : Config)
    (root : Node ε κ) (top : Path) (node : Node ε κ) (name : String) : Prop where
  /-- The lookup is that with a queue. -/
  queue : node.find? name = firstQueued name (childrenAt [] node)
  /-- It finds the nearest descendant with the name, and of several that are as near the leftmost. -/
  nearest : ∀ path found, node.find? name = some (path, found) ↔ node.Nearest name path found
  /-- The others that are as near are behind it in the text. -/
  leftmost : ∀ path found, node.find? name = some (path, found) → ∀ other below, other ≠ path →
    other.length = path.length → node.at? other = some below → below.name = some name →
      found.span.stop ≤ below.span.start
  /-- It finds nothing just if no proper descendant has the name. -/
  nothing : node.find? name = none ↔
    ∀ path below, path ≠ [] → node.at? path = some below → below.name ≠ some name
  /-- The value of the variable is that of the node that is found. -/
  value : ∀ {σ : Type} (program : ε → Node ε κ → Program σ) path found,
    node.find? name = some (path, found) →
      root.evaluateAt program top name = root.valueAt program (top ++ path)
  /-- If nothing is found, the variable is unknown, and nothing is evaluated, -/
  unknown : ∀ {σ : Type} (program : ε → Node ε κ → Program σ), node.find? name = none →
    ∀ memo, (root.evaluateAt program top name).run memo =
      (.error (.unknownVariable name node.text node.span), memo)
  /-- and only then. -/
  unknownOnly : ∀ {σ : Type} (program : ε → Node ε κ → Program σ) state,
    (root.evaluateAt program top name).run ⟨[], state⟩ =
      (.error (.unknownVariable name node.text node.span), ⟨[], state⟩) → node.find? name = none
  /-- A child with the name hides everything else. -/
  child : ∀ index child, node.child? name = some (index, child) →
    node.find? name = some ([index], child)
  /-- In a script, every placeholder of a pattern is such a child. -/
  placeholder : ∀ text chosen slot, Matching.parse registry config text = .ok root →
    node.kind = .alternative chosen → Item.placeholder slot ∈ chosen.pattern.items →
      slot.name = name → ∃ index child, node.child? name = some (index, child)

/-- At every node of every tree of a text, a name stands for the leftmost of the nearest descendants
that have it. -/
theorem find?_looksUp [DecidableEq ε] [DecidableEq κ] {registry : Registry ε κ} {config : Config}
    {root node : Node ε κ} (tree : root.IsParsed registry config) {top : Path}
    (here : root.at? top = some node) (name : String) :
    LooksUp registry config root top node name := by
  have gapless : node.Gapless := fun below lower =>
    Matching.parsed_filled tree ((below_of_at? here).trans lower)
  refine {
    queue := node.find?_eq_firstQueued name
    nearest := fun path found => find?_eq_some_iff
    nothing := find?_eq_none_iff
    value := fun program path found search => evaluateAt_found here search
    unknown := fun program search memo => by rw [evaluateAt_unknown here search]; rfl
    child := fun index child search => find?_of_child? search
    leftmost := ?leftmost
    unknownOnly := ?unknownOnly
    placeholder := ?placeholder }
  case leftmost =>
    intro path found search other below elsewhere same there named
    have nearest := nearest_of_find? search
    have proper : other ≠ [] := by
      rintro rfl
      exact nearest.proper (List.length_eq_zero_iff.mp same.symm)
    rcases nearest.first other below proper there named elsewhere with less | ⟨-, left⟩
    · omega
    · exact gapless.ordered left nearest.here there
  case unknownOnly =>
    intro σ program state unknown
    cases search : node.find? name with
    | none => rfl
    | some entry =>
      have there : root.at? (top ++ entry.1) = some entry.2 := by
        rw [at?_append, here]
        exact (nearest_of_find? search).here
      have kept : ((root.valueAt program (top ++ entry.1)).run ⟨[], state⟩).2.outcomes ≠ [] :=
        valueAt_kept there state
      -- If it were unknown, nothing would be kept.
      rw [← evaluateAt_found here search, unknown] at kept
      exact absurd rfl kept
  case placeholder =>
    intro text chosen slot parsed kind listed same
    rcases Matching.parse_nodes parsed (below_of_at? here) with script | derived
    · cases script.symm.trans kind
    obtain ⟨_, _, items⟩ := derived.children_alternative kind
    obtain ⟨found, member, named⟩ := items.exists_named listed
    cases search : node.child? name with
    | some entry => exact ⟨_, _, rfl⟩
    | none =>
      obtain ⟨index, bound, rfl⟩ := List.getElem_of_mem member
      have other := List.find?_eq_none.mp search (index, node.children[index])
        (List.mem_mapIdx.mpr ⟨index, bound, rfl⟩)
      exact absurd (named.trans (congrArg some same)) (by simpa using other)

/-- Sentences of a pair and a digit, which has the same name as the first half of the pair. -/
def pairs : Registry Empty Empty :=
  let digit (name : String) : Item := .placeholder ⟨name, .builtin .digit, .one, ⟨0, 0⟩⟩
  .ofItems [("pair", [[digit "x", .literal "/" ⟨0, 0⟩, digit "y"]])]
    [[.type "pair", .literal " " ⟨0, 0⟩, digit "x"]]

theorem find?_looksUp_pairs :
    ∃ root sentence, Matching.parse pairs {} "1/2 3" = .ok root ∧ root.at? [0] = some sentence ∧
      (sentence.find? "x").map Prod.fst = some [2] ∧ LooksUp pairs {} root [0] sentence "x" := by
  have read : (Matching.parse pairs {} "1/2 3").toOption.bind (fun root =>
      (root.at? [0]).map fun sentence => (sentence.find? "x").map Prod.fst) = some (some [2]) := by
    decide +kernel
  obtain ⟨root, sentence, parsed, here, search⟩ := Matching.exists_parsed read
  exact ⟨root, sentence, parsed, here, search, find?_looksUp (.whole parsed) here "x"⟩

end Node
end SentenceGrammar
