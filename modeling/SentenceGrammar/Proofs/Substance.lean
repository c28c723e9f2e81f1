import SentenceGrammar.Grammar.Registry
import SentenceGrammar.Proofs.PatternRendering

/-!
# Grammars that ask for something

Whatever is read as a pattern asks a text for something: its literals are not empty, and its
placeholders may be filled, at least once and as often as they must be. So the definitions that
change a grammar keep it well formed. Only an empty pattern asks for nothing at all, and a type that
is made of nothing else is hollow. They also keep every character class what its text says.
-/
namespace SentenceGrammar

/-! ### Patterns -/

/-- An occurrence is allowed, and so are all that are required. -/
def Quantifier.Satisfiable (quantifier : Quantifier) : Prop :=
  ∀ most, quantifier.most = some most → 0 < most ∧ quantifier.least ≤ most

theorem Quantifier.one_satisfiable : one.Satisfiable := by
  rintro _ ⟨⟩
  exact ⟨Nat.one_pos, Nat.le_refl 1⟩

theorem QuantifierText.satisfiable {text : List Char} {quantifier : Quantifier}
    (written : QuantifierText text quantifier) : quantifier.Satisfiable := by
  cases written with
  | optional =>
    rintro _ ⟨⟩
    exact ⟨Nat.one_pos, Nat.zero_le 1⟩
  -- Without a greatest count nothing is to be shown.
  | zeroOrMore => rintro _ ⟨⟩
  | oneOrMore => rintro _ ⟨⟩
  | @exactly _ count _ positive =>
    rintro _ ⟨⟩
    exact ⟨positive, Nat.le_refl count⟩
  | between _ _ ordered positive =>
    rintro _ ⟨⟩
    exact ⟨positive, ordered⟩

/-- If no more are allowed, enough were read. -/
theorem Quantifier.Satisfiable.least_le {quantifier : Quantifier}
    (satisfiable : quantifier.Satisfiable) {done : Nat} (full : quantifier.allowsMore done = false) :
    quantifier.least ≤ done := by
  cases known : quantifier.most with
  | none => simp [allowsMore, known] at full
  | some most =>
    have least := (satisfiable most known).2
    simp only [allowsMore, known, decide_eq_false_iff_not] at full
    omega

/-- Something is allowed at first. -/
theorem Quantifier.Satisfiable.allowsMore_zero {quantifier : Quantifier}
    (satisfiable : quantifier.Satisfiable) : quantifier.allowsMore 0 = true := by
  cases known : quantifier.most with
  | none => simp [allowsMore, known]
  | some most => simpa [allowsMore, known] using (satisfiable most known).1

/-- The item asks for something that a text can have. -/
def Item.Substantial : Item → Prop
  | .literal text _ => text ≠ ""
  | .placeholder slot => slot.quantifier.Satisfiable

/-- The item stands for a registered type. -/
def Item.Names (type : String) : Item → Prop
  | .literal _ _ => False
  | .placeholder slot => slot.target = .named type

/-- The item has to be repeated; a single occurrence is no repetition. -/
def Item.Repeats : Item → Prop
  | .literal _ _ => False
  | .placeholder slot => slot.quantifier ≠ .one ∧ 0 < slot.quantifier.least

section

variable {ε κ : Type} (rules : String → List (Alternative ε κ))

/-- There is nothing to read in the type: its alternatives are made of nothing but such types. -/
inductive HollowType : String → Prop where
  | intro {name : String}
      (named : ∀ chosen ∈ rules name, ∀ item ∈ chosen.pattern.items, ∃ type, item.Names type)
      (inner : ∀ chosen ∈ rules name, ∀ item ∈ chosen.pattern.items, ∀ type, item.Names type →
        HollowType type) : HollowType name

/-- The item stands for a type in which there is nothing to read. -/
def Item.Hollow (item : Item) : Prop := ∃ type, item.Names type ∧ HollowType rules type

/-- The item may be filled, and in what it has to repeat there is something to read. -/
structure Item.Fillable (item : Item) : Prop where
  substantial : item.Substantial
  solid : item.Repeats → ¬item.Hollow rules

variable {rules}

theorem Item.Names.unique {item : Item} {type other : String} (names : item.Names type)
    (others : item.Names other) : type = other := by
  cases item with
  | literal text span => exact names.elim
  | placeholder slot => exact Target.named.inj (names.symm.trans others)

/-- What is not hollow has an alternative with something that is not. -/
theorem exists_solid {name : String} (solid : ¬HollowType rules name) :
    ∃ chosen ∈ rules name, ∃ item ∈ chosen.pattern.items, ¬item.Hollow rules := by
  refine Classical.byContradiction fun all => solid ?_
  simp only [not_exists, not_and, Classical.not_not] at all
  refine ⟨fun chosen member item listed => ?_, fun chosen member item listed type names => ?_⟩
  · obtain ⟨type, names, -⟩ := all chosen member item listed
    exact ⟨type, names⟩
  · obtain ⟨other, others, hollow⟩ := all chosen member item listed
    exact names.unique others ▸ hollow

end

/-- The part asks for something that a text can have. -/
def Part.Substantial : Part → Prop
  | .literal text => text ≠ []
  | .slot _ _ quantifier => quantifier.Satisfiable

theorem Item.substantial_iff (item : Item) : item.Substantial ↔ item.part.Substantial := by
  cases item with
  | literal text span => simp [Substantial, part, Part.Substantial]
  | placeholder slot => rfl

theorem SlotText.substantial {text : List Char} {slot : Part} (placed : SlotText text slot) :
    slot.Substantial := by
  obtain ⟨-, -, -, counted⟩ := placed
  cases counted with
  | nil => exact Quantifier.one_satisfiable
  | colon written => exact written.satisfiable

/-- What holds of literal text and of whatever has a written form holds of all parts. -/
theorem Tidy.all {Fits : Part → Prop} (literal : ∀ text, text ≠ [] → Fits (.literal text))
    (placeholder : ∀ inside slot, SlotText inside slot → Fits slot) {parts : List Part}
    (tidy : Tidy parts) : ∀ part ∈ parts, Fits part := by
  induction tidy with
  | nil => simp
  | last some => simpa using literal _ some
  | literal some placed _ ih =>
    exact List.forall_mem_cons.mpr
      ⟨literal _ some, List.forall_mem_cons.mpr ⟨placeholder _ _ placed, ih⟩⟩
  | slot placed _ ih => exact List.forall_mem_cons.mpr ⟨placeholder _ _ placed, ih⟩

/-- The class is what is written between its brackets. -/
def CharClass.AsWritten (set : CharClass) : Prop := CharClass.read set.body = .ok set

/-- What is written tells which class it is. -/
theorem CharClass.AsWritten.unique {set other : CharClass} (written : set.AsWritten)
    (written' : other.AsWritten) (same : set.source = other.source) : set = other := by
  have bodies : set.body = other.body := by
    simpa [CharClass.source, ← String.toList_inj] using same
  rw [CharClass.AsWritten, bodies] at written
  exact Except.ok.inj (written.symm.trans written')

def Target.AsWritten : Target → Prop
  | .charClass set => set.AsWritten
  | .builtin _ | .named _ => True

def Part.AsWritten : Part → Prop
  | .literal _ => True
  | .slot _ target _ => target.AsWritten

theorem SlotText.asWritten {text : List Char} {slot : Part} (placed : SlotText text slot) :
    slot.AsWritten := by
  obtain ⟨-, -, targeted, -⟩ := placed
  cases targeted with
  | @charClass body set _ accepted =>
    rw [← CharClass.read_body accepted] at accepted
    exact accepted
  | builtin => trivial
  | named => trivial

namespace Pattern

/-- The items of a pattern all ask for something, and there is one unless the pattern is empty. -/
theorem read_substantial {source : String} {pattern : Pattern} (known : read source = .ok pattern) :
    (∀ item ∈ pattern.items, item.Substantial) ∧ (pattern.items = [] → source = "") := by
  have written := written_of_read known
  refine ⟨fun item member => ?_, fun nothing => ?_⟩
  · have parts := written.tidy.all (fun _ some => some) fun _ _ placed => placed.substantial
    exact item.substantial_iff.mpr (parts _ (List.mem_map_of_mem member))
  · exact String.toList_eq_nil_iff.mp (written.eq_nil (by simp [nothing]))

theorem read_asWritten {source : String} {pattern : Pattern} (known : read source = .ok pattern)
    {slot : Placeholder} (member : Item.placeholder slot ∈ pattern.items) :
    slot.target.AsWritten := by
  have parts := (written_of_read known).tidy.all (fun _ _ => trivial)
    fun _ _ placed => placed.asWritten
  exact parts _ (List.mem_map_of_mem member)

end Pattern

/-! ### Registries -/

namespace Registry

variable {ε κ : Type} {registry registry' : Registry ε κ}

/-- Every type has an alternative, and all items ask for something. -/
structure WellFormed (registry : Registry ε κ) : Prop where
  types : ∀ entry ∈ registry.types, entry.alternatives ≠ []
  items : ∀ chosen ∈ registry.allAlternatives, ∀ item ∈ chosen.pattern.items, item.Substantial

theorem mem_allAlternatives {chosen : Alternative ε κ} : chosen ∈ registry.allAlternatives ↔
    (∃ entry ∈ registry.types, chosen ∈ entry.alternatives) ∨ chosen ∈ registry.sentences := by
  rw [allAlternatives, List.mem_append, List.mem_flatMap]

theorem empty_wellFormed : (default : Registry ε κ).WellFormed :=
  ⟨by simp [default], by simp [default, allAlternatives]⟩

private theorem addAlternative_entries (name : String) (added : Alternative ε κ)
    (entries : List (TypeEntry ε κ)) (entry : TypeEntry ε κ)
    (member : entry ∈ addAlternative name added entries) :
    entry ∈ entries ∨ ∃ before : List (Alternative ε κ), entry.alternatives = before ++ [added] ∧
      ∀ chosen ∈ before, ∃ entry' ∈ entries, chosen ∈ entry'.alternatives := by
  induction entries with
  | nil =>
    obtain rfl := List.mem_singleton.mp member
    exact .inr ⟨[], rfl, by simp⟩
  | cons first rest ih =>
    rw [addAlternative] at member
    split at member
    next =>
      rcases List.mem_cons.mp member with rfl | later
      · exact .inr ⟨first.alternatives, rfl, fun chosen listed => ⟨first, List.mem_cons_self, listed⟩⟩
      · exact .inl (List.mem_cons_of_mem _ later)
    next =>
      split at member
      next =>
        rcases List.mem_cons.mp member with rfl | later
        · exact .inr ⟨[], rfl, by simp⟩
        · exact .inl later
      next =>
        rcases List.mem_cons.mp member with rfl | later
        · exact .inl List.mem_cons_self
        · rcases ih later with known | ⟨before, same, listed⟩
          · exact .inl (List.mem_cons_of_mem _ known)
          · refine .inr ⟨before, same, fun chosen member => ?_⟩
            obtain ⟨entry', known, among⟩ := listed chosen member
            exact ⟨entry', List.mem_cons_of_mem _ known, among⟩

/-- A definition adds one alternative with its pattern, and no type without any. -/
theorem define_adds {definition : Definition ε κ} (defined : registry.define definition = .ok registry') :
    ∃ pattern, Pattern.read definition.pattern = .ok pattern ∧
      (∀ chosen ∈ registry'.allAlternatives,
        chosen ∈ registry.allAlternatives ∨ chosen.pattern = pattern) ∧
      ∀ entry ∈ registry'.types, entry ∈ registry.types ∨ entry.alternatives ≠ [] := by
  unfold define at defined
  obtain ⟨pattern, known, defined⟩ := exists_of_bind_ok defined
  refine ⟨pattern, known, ?_⟩
  dsimp only at defined
  split at defined
  next name _ =>
    obtain ⟨_, -, same⟩ := exists_of_bind_ok defined
    obtain rfl := Except.ok.inj same
    have entries := addAlternative_entries name ⟨definition.name, pattern, definition.evaluator,
      definition.completer, definition.insertWhole⟩ registry.types
    refine ⟨fun chosen member => ?_, fun entry member => ?_⟩
    · rcases mem_allAlternatives.mp member with ⟨entry, listed, among⟩ | sentence
      · rcases entries entry listed with before | ⟨others, same, before⟩
        · exact .inl (mem_allAlternatives.mpr (.inl ⟨entry, before, among⟩))
        · rw [same, List.mem_append, List.mem_singleton] at among
          rcases among with other | rfl
          · exact .inl (mem_allAlternatives.mpr (.inl (before chosen other)))
          · exact .inr rfl
      · exact .inl (mem_allAlternatives.mpr (.inr sentence))
    · rcases entries entry member with before | ⟨others, same, -⟩
      · exact .inl before
      · exact .inr (by simp [same])
  next =>
    obtain rfl := Except.ok.inj defined
    refine ⟨fun chosen member => ?_, fun entry member => .inl member⟩
    rcases mem_allAlternatives.mp member with type | sentence
    · exact .inl (mem_allAlternatives.mpr (.inl type))
    · rcases List.mem_append.mp sentence with before | added
      · exact .inl (mem_allAlternatives.mpr (.inr before))
      · exact .inr (congrArg Alternative.pattern (List.mem_singleton.mp added))

theorem define_wellFormed {definition : Definition ε κ} (wellFormed : registry.WellFormed)
    (defined : registry.define definition = .ok registry') : registry'.WellFormed := by
  obtain ⟨pattern, known, alternatives, types⟩ := define_adds defined
  refine ⟨fun entry member => (types entry member).elim (wellFormed.types entry) id,
    fun chosen member => ?_⟩
  rcases alternatives chosen member with before | rfl
  · exact wellFormed.items chosen before
  · exact (Pattern.read_substantial known).1

/-- Taking back a type leaves some of the types and alternatives. -/
theorem undefine_subset {name : String} (undefined : registry.undefine name = .ok registry') :
    registry'.types ⊆ registry.types ∧ registry'.allAlternatives ⊆ registry.allAlternatives := by
  rw [undefine] at undefined
  split at undefined
  next =>
    obtain rfl := Except.ok.inj undefined
    refine ⟨fun entry member => (List.mem_filter.mp member).1, fun chosen member => ?_⟩
    refine mem_allAlternatives.mpr ((mem_allAlternatives.mp member).imp_left ?_)
    rintro ⟨entry, listed, among⟩
    exact ⟨entry, (List.mem_filter.mp listed).1, among⟩
  next => cases undefined

theorem undefine_wellFormed {name : String} (wellFormed : registry.WellFormed)
    (undefined : registry.undefine name = .ok registry') : registry'.WellFormed := by
  obtain ⟨types, alternatives⟩ := undefine_subset undefined
  exact ⟨fun entry member => wellFormed.types entry (types member),
    fun chosen member => wellFormed.items chosen (alternatives member)⟩

theorem setCompleter_wellFormed {name : String} {completer : κ} (wellFormed : registry.WellFormed)
    (changed : registry.setCompleter name completer = .ok registry') : registry'.WellFormed := by
  rw [setCompleter] at changed
  split at changed
  next =>
    obtain rfl := Except.ok.inj changed
    exact ⟨wellFormed.types, wellFormed.items⟩
  next => cases changed

/-- Every character class is what its text says. -/
def ClassesAsWritten (registry : Registry ε κ) : Prop :=
  ∀ chosen ∈ registry.allAlternatives, ∀ slot, Item.placeholder slot ∈ chosen.pattern.items →
    slot.target.AsWritten

theorem empty_classesAsWritten : (default : Registry ε κ).ClassesAsWritten := by
  simp [ClassesAsWritten, default, allAlternatives]

theorem define_classesAsWritten {definition : Definition ε κ} (written : registry.ClassesAsWritten)
    (defined : registry.define definition = .ok registry') : registry'.ClassesAsWritten := by
  obtain ⟨pattern, known, alternatives, -⟩ := define_adds defined
  intro chosen member slot listed
  rcases alternatives chosen member with before | rfl
  · exact written chosen before slot listed
  · exact Pattern.read_asWritten known listed

theorem undefine_classesAsWritten {name : String} (written : registry.ClassesAsWritten)
    (undefined : registry.undefine name = .ok registry') : registry'.ClassesAsWritten :=
  fun chosen member => written chosen ((undefine_subset undefined).2 member)

theorem setCompleter_classesAsWritten {name : String} {completer : κ}
    (written : registry.ClassesAsWritten)
    (changed : registry.setCompleter name completer = .ok registry') :
    registry'.ClassesAsWritten := by
  rw [setCompleter] at changed
  split at changed
  next =>
    obtain rfl := Except.ok.inj changed
    exact written
  next => cases changed

/-- In everything that has to be repeated there is something to read. -/
def RepeatsSolid (registry : Registry ε κ) : Prop :=
  ∀ chosen ∈ registry.allAlternatives, ∀ item ∈ chosen.pattern.items, item.Repeats →
    ¬item.Hollow registry.alternatives

/-- Every alternative asks for something. -/
def AsksThroughout (registry : Registry ε κ) : Prop :=
  ∀ chosen ∈ registry.allAlternatives, chosen.pattern.items ≠ []

theorem define_asksThroughout {definition : Definition ε κ} (asks : registry.AsksThroughout)
    (some : definition.pattern ≠ "") (defined : registry.define definition = .ok registry') :
    registry'.AsksThroughout := by
  obtain ⟨pattern, known, alternatives, -⟩ := define_adds defined
  intro chosen member
  rcases alternatives chosen member with before | rfl
  · exact asks chosen before
  · exact mt (Pattern.read_substantial known).2 some

end Registry
end SentenceGrammar
