import SentenceGrammar.Proofs.NotedExpectations
import SentenceGrammar.Proofs.Offers

/-!
# What a search comes across

A search reads nothing but the items of registered alternatives. So whatever the end of the text
cuts off is part of a literal or of a placeholder that some pattern has, and a type that is noted as
undefined is one that some pattern refers to. This is so in every grammar and every text: the search
need not find all that there is, and what it remembers need not be right.

## Main result

`scriptRun_meets`: what is cut off of a text, and what is noted, is known in the grammar.
-/
namespace SentenceGrammar

variable {ε κ : Type} {registry : Registry ε κ}

/-! ### The grammar -/

/-- Some pattern refers to a type of this name, which is not defined. -/
def Registry.Lacks (registry : Registry ε κ) (name : String) : Prop :=
  ∃ reference ∈ registry.undefinedReferences, reference.name = name

theorem Registry.HasPlaceholder.lacks {slot : Placeholder} (has : registry.HasPlaceholder slot)
    {name : String} (target : slot.target = .named name)
    (undefined : registry.containsType name ≠ true) : registry.Lacks name := by
  obtain ⟨chosen, registered, item⟩ := has
  refine ⟨⟨name, slot.span, chosen.pattern.source⟩, ?_, rfl⟩
  refine List.mem_flatMap.mpr ⟨chosen, registered, List.mem_filterMap.mpr ⟨slot, ?_, ?_⟩⟩
  · exact List.mem_filterMap.mpr ⟨_, item, rfl⟩
  · simp [target, undefined]

/-- The leaf stands for a literal or fills a placeholder of some pattern. -/
inductive Node.StandsIn (registry : Registry ε κ) (leaf : Node ε κ) : Prop where
  | literal {text : String} (kind : leaf.kind = .literal text)
  | placeholder {slot : Placeholder} (fills : leaf.name = some slot.name)
      (has : registry.HasPlaceholder slot)

/-- The nodes are cut off in a leaf that the grammar knows. -/
def Registry.CutsOff (registry : Registry ε κ) (nodes : List (Node ε κ)) : Prop :=
  ∃ leaf, Node.openLeaf? nodes = some leaf ∧ leaf.StandsIn registry

namespace Registry.CutsOff

variable {nodes : List (Node ε κ)}

theorem leaf {start : Cursor} {name : Option String} {kind : NodeKind ε κ}
    (stands : (Node.cutOff start name kind []).StandsIn registry) :
    registry.CutsOff [.cutOff start name kind []] :=
  ⟨_, Node.openLeaf?_leaf start name kind, stands⟩

theorem behind (cut : registry.CutsOff nodes) (front : List (Node ε κ)) :
    registry.CutsOff (front ++ nodes) := by
  obtain ⟨leaf, last, stands⟩ := cut
  exact ⟨leaf, Node.openLeaf?_append last, stands⟩

theorem around (cut : registry.CutsOff nodes) (start : Cursor) (name : Option String)
    (kind : NodeKind ε κ) : registry.CutsOff [.cutOff start name kind nodes] := by
  obtain ⟨leaf, last, stands⟩ := cut
  exact ⟨leaf, Node.openLeaf?_cutOff last, stands⟩

end Registry.CutsOff

namespace Matching

variable {α β : Type}

/-! ### Searches -/

/-- All that is remembered of a type was cut off in the grammar. -/
def Familiar (registry : Registry ε κ) (known : Known ε κ) : Prop :=
  ∀ entry ∈ known, ∀ cut ∈ entry.2.cut, registry.CutsOff cut.2

/-- A type is only noted as undefined if the grammar lacks it. -/
def Excused (registry : Registry ε κ) (_offset : Nat) (expected : Expected) : Prop :=
  ∀ name, expected = .undefinedType name → registry.Lacks name

/-- The search remembers and notes only what the grammar has or lacks. -/
abbrev Meets (registry : Registry ε κ) (search : Search ε κ α) (post : α → Prop) : Prop :=
  Grounds (Familiar registry) (Excused registry) search post

namespace Grounds

variable {holds : (String × Nat) × TypeReadings ε κ → Prop} {grounds : Nat → Expected → Prop}
  {name : String} {place : Cursor}

theorem lookUp : Grounds (fun known => ∀ entry ∈ known, holds entry) grounds (lookUp name place)
    fun found => ∀ readings, found = some readings → holds ((name, place.offset), readings) :=
  fun _ invariant grounded =>
    ⟨fun _ found => invariant _ (mem_of_lookup found), invariant, grounded⟩

theorem remember {readings : TypeReadings ε κ} (new : holds ((name, place.offset), readings)) :
    Grounds (fun known => ∀ entry ∈ known, holds entry) grounds (remember name place readings)
      fun _ => True :=
  fun _ invariant grounded => ⟨trivial, List.forall_mem_cons.mpr ⟨new, invariant⟩, grounded⟩

end Grounds

/-- All that a repetition remembers was cut off in the grammar. -/
def RepeatedFamiliar (registry : Registry ε κ) (known : Repeated ε κ) : Prop :=
  ∀ entry ∈ known, ∀ nodes ∈ entry.2.cut, registry.CutsOff nodes

/-- The same for searches within a repetition. -/
def MeetsWithin (registry : Registry ε κ) (search : StateT (Repeated ε κ) (Search ε κ) α)
    (post : α → Prop) : Prop :=
  ∀ known, RepeatedFamiliar registry known → Meets registry (search.run known) fun result =>
    post result.1 ∧ RepeatedFamiliar registry result.2

namespace MeetsWithin

variable {post : β → Prop}

theorem pure {result : β} (holds : post result) : MeetsWithin registry (Pure.pure result) post :=
  fun _ familiar => .pure ⟨holds, familiar⟩

theorem bind {search : StateT (Repeated ε κ) (Search ε κ) α}
    {next : α → StateT (Repeated ε κ) (Search ε κ) β} {middle : α → Prop}
    (first : MeetsWithin registry search middle)
    (further : ∀ a, middle a → MeetsWithin registry (next a) post) :
    MeetsWithin registry (search >>= next) post := by
  intro known familiar
  rw [StateT.run_bind]
  exact (first known familiar).bind fun result both => further _ both.1 _ both.2

theorem lift {search : Search ε κ β} (meets : Meets registry search post) :
    MeetsWithin registry (StateT.lift search) post :=
  fun _ familiar => meets.bind fun _ result => .pure ⟨result, familiar⟩

theorem get : MeetsWithin registry (MonadState.get : StateT (Repeated ε κ) (Search ε κ) _)
    (RepeatedFamiliar registry) :=
  fun _ familiar => .pure ⟨familiar, familiar⟩

theorem remember {key : Nat × Nat} {chains : Chains ε κ}
    (new : ∀ nodes ∈ chains.cut, registry.CutsOff nodes) :
    MeetsWithin registry
      (do modify fun known : Repeated ε κ => (key, chains) :: known; return chains)
      fun chains => ∀ nodes ∈ chains.cut, registry.CutsOff nodes :=
  fun _ familiar => .pure ⟨new, List.forall_mem_cons.mpr ⟨new, familiar⟩⟩

theorem mapM (post : β → Prop) {list : List α} {search : α → StateT (Repeated ε κ) (Search ε κ) β}
    (each : ∀ a ∈ list, MeetsWithin registry (search a) post) :
    MeetsWithin registry (list.mapM search) fun results => ∀ result ∈ results, post result := by
  induction list with
  | nil => exact pure (by simp)
  | cons a rest ih =>
    rw [List.mapM_cons]
    refine (each a List.mem_cons_self).bind fun b first => ?_
    refine (ih fun c member => each c (List.mem_cons_of_mem _ member)).bind fun others holds => ?_
    exact pure (List.forall_mem_cons.mpr ⟨first, holds⟩)

end MeetsWithin

/-! ### Terminals -/

variable {scope : Scope ε κ} {named : TypeReader ε κ} {slot : Placeholder}

theorem readLiteral_meets (text : String) (start : Cursor) :
    Meets scope.registry (readLiteral scope text start) fun readings =>
      ∀ node ∈ readings.cut, scope.registry.CutsOff [node] := by
  have excused (missing : List Char) (place : Cursor) :
      Excused scope.registry place.offset (.literal (String.ofList missing)) := by simp [Excused]
  rw [readLiteral]
  split
  next => exact .pure (by simp)
  next missing _ =>
    refine (Grounds.expect (excused missing _)).bind fun _ _ => .pure fun node member => ?_
    obtain rfl := mem_keep member
    exact .leaf (.literal rfl)
  next place missing _ =>
    exact (Grounds.expect (excused missing place)).bind fun _ _ => .pure (by simp)

theorem readRun_meets (has : scope.registry.HasPlaceholder slot) (accepts : Char → Bool)
    {expected : Expected} (excused : ∀ offset, Excused scope.registry offset expected)
    (kind : NodeKind ε κ) (start : Cursor) :
    Meets scope.registry (readRun scope slot accepts expected kind start) fun readings =>
      ∀ node ∈ readings.cut, scope.registry.CutsOff [node] := by
  rw [readRun]
  split
  refine .perhapsExpect (fun _ => excused _) fun _ => .pure fun node member => ?_
  obtain rfl := mem_keep (List.mem_ite_nil_right.mp member).2
  exact .leaf (.placeholder rfl has)

theorem readNumber_meets (has : scope.registry.HasPlaceholder slot) (type : Builtin)
    (start : Cursor) :
    Meets scope.registry (readNumber scope slot type start) fun readings =>
      ∀ node ∈ readings.cut, scope.registry.CutsOff [node] := by
  rw [readNumber]
  refine .perhapsExpect (fun _ => by simp [Excused]) fun _ => .pure fun node member => ?_
  obtain rfl := mem_keep (List.mem_ite_nil_right.mp member).2
  exact .leaf (.placeholder rfl has)

/-! ### Units and repetitions -/

variable (scope named) in
/-- Wherever a type is read, it is read within the grammar. -/
def NamedMeets : Prop :=
  ∀ name place, Meets scope.registry (named scope name place) fun readings =>
    ∀ cut ∈ readings.cut, scope.registry.CutsOff cut.2

/-- A type that is read is defined, and one that is not defined is noted. -/
theorem readUnit_meets (meets : NamedMeets scope named) (has : scope.registry.HasPlaceholder slot)
    (start : Cursor) :
    Meets scope.registry (readUnit scope named slot start) fun readings =>
      ∀ node ∈ readings.cut, scope.registry.CutsOff [node] := by
  rw [readUnit]
  split
  next type _ => exact readNumber_meets has type start
  next type target =>
    rw [readNamed]
    split
    next =>
      refine (meets type start).bind fun readings known => .pure fun node member => ?_
      obtain ⟨cut, listed, rfl⟩ := List.mem_map.mp member
      exact (known cut listed).around _ _ _
    next undefined =>
      refine (Grounds.expect fun name same => ?_).bind fun _ _ => .pure (by simp)
      obtain rfl := Expected.undefinedType.inj same
      exact has.lacks target undefined
  next => exact .pure (by simp)

theorem readSeparator_meets (done : Nat) (start : Cursor) :
    Meets scope.registry (readSeparator scope done start) fun chains =>
      ∀ nodes ∈ chains.cut, scope.registry.CutsOff nodes := by
  rw [readSeparator]
  split
  · split
    · exact .pure (by simp)
    · refine (readLiteral_meets _ start).bind fun readings known => .pure fun nodes member => ?_
      obtain ⟨node, listed, rfl⟩ := List.mem_map.mp member
      exact known node listed
  · exact .pure (by simp)

theorem readRepeated_meets {unit : Cursor → Search ε κ (Readings ε κ)} (quantifier : Quantifier)
    (units : ∀ place, Meets scope.registry (unit place) fun readings =>
      ∀ node ∈ readings.cut, scope.registry.CutsOff [node]) (steps done : Nat) (start : Cursor) :
    MeetsWithin scope.registry (readRepeated scope unit quantifier steps done start) fun chains =>
      ∀ nodes ∈ chains.cut, scope.registry.CutsOff nodes := by
  induction steps generalizing done start with
  | zero => exact .pure (by simp)
  | succ steps ih =>
    rw [readRepeated]
    refine MeetsWithin.get.bind fun known familiar => ?_
    split
    next chains found => exact .pure (familiar _ (mem_of_lookup found))
    next =>
      -- Whatever a repetition comes to is remembered: nothing, a separator, or what units leave.
      simp only [pure_bind]
      split
      case isFalse => exact .remember (by simp)
      refine (MeetsWithin.lift (readSeparator_meets done start)).bind fun opening opened => ?_
      split
      next => exact .remember opened
      next first others _ =>
        refine (MeetsWithin.lift (units first.stop)).bind fun readings cut => ?_
        refine (MeetsWithin.mapM (fun tails => ∀ nodes ∈ tails.cut, scope.registry.CutsOff nodes)
          fun found _ => ?each).bind fun tails known => .remember fun nodes member => ?cut
        case each =>
          split
          · exact .pure (by simp)
          · refine (ih _ _).bind fun rest known => .pure fun nodes member => ?_
            obtain ⟨tail, listed, rfl⟩ := List.mem_map.mp member
            exact (known tail listed).behind _
        case cut =>
          rcases List.mem_append.mp member with early | late
          · rcases List.mem_append.mp early with separator | unit
            · exact opened nodes separator
            · obtain ⟨node, listed, rfl⟩ := List.mem_map.mp unit
              exact (cut node listed).behind _
          · obtain ⟨tail, listed, member⟩ := List.mem_flatMap.mp late
            exact known tail listed nodes member

/-! ### Items and alternatives -/

theorem readItem_meets (meets : NamedMeets scope named) {item : Item}
    (has : ∀ slot, item = .placeholder slot → scope.registry.HasPlaceholder slot)
    (start : Cursor) :
    Meets scope.registry (readItem scope named item start) fun readings =>
      ∀ node ∈ readings.cut, scope.registry.CutsOff [node] := by
  cases item with
  | literal text span => exact readLiteral_meets text start
  | placeholder slot =>
    have has := has slot rfl
    rw [readItem]
    cases single : slot.target.single? with
    | some accepts =>
      rw [readPlaceholder_run scope named start single]
      refine readRun_meets has accepts (fun _ name same => ?_) _ start
      cases target : slot.target <;> simp_all [Target.expected, Target.single?]
    | none =>
      rw [readPlaceholder_several single]
      split
      · exact readUnit_meets meets has start
      · rw [readRepetition]
        have repeated := readRepeated_meets slot.quantifier (readUnit_meets meets has)
          (start.rest.length + 1) 0 start
        refine (repeated [] (by simp [RepeatedFamiliar])).bind fun result known =>
          .pure fun node member => ?_
        obtain ⟨nodes, listed, rfl⟩ := List.mem_map.mp member
        exact (known.1 nodes listed).around _ _ _

theorem readItems_meets (meets : NamedMeets scope named) (items : List Item)
    (has : ∀ slot, Item.placeholder slot ∈ items → scope.registry.HasPlaceholder slot)
    (chains : List (Chain ε κ)) :
    Meets scope.registry (readItems scope named items chains) fun found =>
      ∀ nodes ∈ found.cut, scope.registry.CutsOff nodes := by
  induction items generalizing chains with
  | nil => exact .pure (by simp)
  | cons item rest ih =>
    rw [readItems]
    refine (Grounds.mapM (fun _ found => ∀ node ∈ found.2.cut, scope.registry.CutsOff [node])
      fun chain _ => ?each).bind fun found related => ?behind
    case each =>
      exact (readItem_meets meets (fun slot same => has slot (same ▸ List.mem_cons_self))
        chain.stop).bind fun readings known => .pure known
    case behind =>
      -- What is cut off stands behind whole nodes, which do not matter for the open leaf.
      refine (ih (fun slot later => has slot (List.mem_cons_of_mem _ later)) _).bind
        fun behind known => .pure fun nodes member => ?_
      rcases List.mem_append.mp member with here | later
      · obtain ⟨after, read, listed⟩ := List.mem_flatMap.mp here
        obtain ⟨node, among, rfl⟩ := List.mem_map.mp listed
        obtain ⟨_, _, cut⟩ := exists_of_forall₂ related read
        exact (cut node among).behind _
      · exact known nodes later

theorem readAlternatives_meets (meets : NamedMeets scope named)
    {alternatives : List (Alternative ε κ)} (among : alternatives ⊆ scope.registry.allAlternatives)
    (start : Cursor) :
    Meets scope.registry (readAlternatives scope named alternatives start) fun readings =>
      ∀ cut ∈ readings.cut, scope.registry.CutsOff cut.2 := by
  rw [readAlternatives]
  refine (Grounds.mapM (fun _ found => ∀ nodes ∈ found.2.cut, scope.registry.CutsOff nodes)
    fun chosen member => ?each).bind fun found related => .pure fun cut member => ?cut
  case each =>
    exact (readItems_meets meets chosen.pattern.items
      (fun slot item => ⟨chosen, among member, item⟩) _).bind fun chains known => .pure known
  case cut =>
    obtain ⟨read, listed, here⟩ := List.mem_flatMap.mp member
    obtain ⟨nodes, cut, rfl⟩ := List.mem_map.mp here
    obtain ⟨_, _, known⟩ := exists_of_forall₂ related listed
    exact known nodes cut

/-! ### Types -/

theorem readType_meets (levels : Nat) (scope : Scope ε κ) : NamedMeets scope (readType levels) := by
  induction levels generalizing scope with
  | zero => exact fun name place => .pure (by simp)
  | succ levels ih =>
    intro name place
    rw [readType]
    refine Grounds.lookUp.bind fun found entry => ?_
    split
    next known => exact .pure (entry known rfl)
    next =>
      split
      · exact .pure (by simp)
      · have inner := ih { scope with active := scope.active ++ [(name, place.offset)] }
        exact (readAlternatives_meets inner (alternatives_subset _ name) place).bind
          fun readings known => (Grounds.remember known).bind fun _ _ => .pure known

/-! ### Scripts -/

theorem advance_meets (meets : NamedMeets scope named) (first : Bool) (step : Step ε κ) :
    Meets scope.registry (advance scope named first step) fun found =>
      ∀ nodes ∈ found.2, scope.registry.CutsOff nodes := by
  rw [advance]
  dsimp only
  split
  · refine .perhapsExpect (fun _ => by simp [Excused]) fun _ =>
      (readAlternatives_meets meets (List.subset_append_right _ _) step.stop).bind
        fun readings known => .pure fun nodes member => ?_
    obtain ⟨cut, listed, rfl⟩ := List.mem_map.mp member
    exact ((known cut listed).around _ _ _).behind _
  · exact .perhapsExpect (fun _ => by simp [Excused]) fun _ => .pure (by simp)

theorem rounds_meets (meets : NamedMeets scope named) (left : Nat) (first : Bool)
    (seen : List Nat) (frontier : List (Step ε κ)) (readings : ScriptReadings ε κ)
    (known : ∀ nodes ∈ readings.cut, scope.registry.CutsOff nodes) :
    Meets scope.registry (rounds scope named left first seen frontier readings) fun readings =>
      ∀ nodes ∈ readings.cut, scope.registry.CutsOff nodes := by
  induction left generalizing first seen frontier readings with
  | zero => exact .pure known
  | succ left ih =>
    unfold rounds
    extract_lets whole finish
    split
    · exact .pure known
    · split
      · split
        · exact (Grounds.forM fun _ _ => .expect (by simp [Excused])).bind fun _ _ => .pure known
        · exact .pure known
      · refine (Grounds.mapM (fun _ found => ∀ nodes ∈ found.2, scope.registry.CutsOff nodes)
          fun step _ => advance_meets meets first step).bind fun found related =>
            ih _ _ _ _ fun nodes member => ?_
        rcases List.mem_append.mp member with before | now
        · exact known nodes before
        · obtain ⟨after, listed, cut⟩ := List.mem_flatMap.mp now
          obtain ⟨_, _, known⟩ := exists_of_forall₂ related listed
          exact known nodes cut

/-- In every grammar and on every text: what is cut off is cut off in a literal or a placeholder of
the grammar, and the types that are noted as undefined are lacking in it. -/
theorem scriptRun_meets (registry : Registry ε κ) (config : Config) (completing : Bool)
    (text : List Char) :
    (∀ nodes ∈ (scriptRun registry config completing text).1.cut, registry.CutsOff nodes) ∧
      ∀ name, .undefinedType name ∈
        (scriptRun registry config completing text).2.failure.expected → registry.Lacks name := by
  have fresh : (Progress.start text : Progress ε κ).failure.Grounded (Excused registry) :=
    ⟨List.nodup_nil, by simp [Progress.start]⟩
  obtain ⟨cut, -, grounded⟩ := rounds_meets (readType_meets _ ⟨registry, config, completing, []⟩) _
    true _ _ {} (by simp) (.start text) (by simp [Familiar, Progress.start]) fresh
  exact ⟨cut, fun name listed => grounded.each _ listed name rfl⟩

end Matching
end SentenceGrammar
