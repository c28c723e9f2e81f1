import Mathlib.Data.List.DropRight
import Mathlib.Data.List.Forall2
import Mathlib.Data.String.Basic
import SentenceGrammar.Proofs.Substance

/-!
# What a registry holds

The contents of a registry are determined by the calls that succeeded: for each type, the
alternatives that were defined since it was last taken back and the completer that was set last
since then, and all sentences. A call changes what is held about one name and nothing else, and a
call that fails changes nothing.
-/
namespace SentenceGrammar

variable {ε κ : Type}

/-- The alternative is what the definition describes. -/
def Definition.Gives (definition : Definition ε κ) (alternative : Alternative ε κ) : Prop :=
  ∃ pattern, Pattern.read definition.pattern = .ok pattern ∧
    alternative = ⟨definition.name, pattern, definition.evaluator, definition.completer,
      definition.insertWhole⟩

/-- A type may have the name: it is an identifier, and no built-in type has it. -/
def IsTypeName (name : String) : Prop :=
  isIdentifier name.toList = true ∧ Builtin.ofName? name = none

theorem checkTypeName_ok_iff {name : String} : checkTypeName name = .ok () ↔ IsTypeName name := by
  unfold checkTypeName IsTypeName
  dsimp only
  cases isIdentifier name.toList <;> cases Builtin.ofName? name <;> simp

namespace Registry

/-! ### Calls -/

/-- A call that is to change a registry. -/
inductive Call (ε κ : Type) where
  | define (definition : Definition ε κ)
  | defineType (name pattern : String) (evaluator : ε)
  | defineSentence (pattern : String) (evaluator : ε)
  | undefine (name : String)
  | setCompleter (name : String) (completer : κ)

namespace Call

/-- What a call makes of a registry. -/
def apply (registry : Registry ε κ) : Call ε κ → Except GrammarError (Registry ε κ)
  | define definition => (registry.define definition).mapError .pattern
  | defineType name pattern evaluator =>
    (registry.defineType name pattern evaluator).mapError .pattern
  | defineSentence pattern evaluator =>
    (registry.defineSentence pattern evaluator).mapError .pattern
  | undefine name => (registry.undefine name).mapError .registry
  | setCompleter name completer => (registry.setCompleter name completer).mapError .registry

/-- Make a call on a registry, which keeps its contents if the call fails. -/
def perform (call : Call ε κ) : StateM (Registry ε κ) (Except GrammarError Unit) := do
  match call.apply (← get) with
  | .ok registry => do
    set registry
    return .ok ()
  | .error error => return .error error

/-- Make calls one after the other. -/
def performAll (calls : List (Call ε κ)) :
    StateM (Registry ε κ) (List (Except GrammarError Unit)) := calls.mapM perform

/-- The definition that a call asks for. -/
def definition? : Call ε κ → Option (Definition ε κ)
  | define definition => some definition
  | defineType name pattern evaluator =>
    some { name := some name, pattern, evaluator := some evaluator }
  | defineSentence pattern evaluator =>
    some { name := none, pattern, evaluator := some evaluator }
  | undefine _ | setCompleter _ _ => none

/-- The completer that a call sets for a type. -/
def completerFor? (name : String) : Call ε κ → Option κ
  | setCompleter type completer => if type = name then some completer else none
  | define _ | defineType .. | defineSentence .. | undefine _ => none

/-- Whether a call takes back a type. -/
def undefines (name : String) : Call ε κ → Bool
  | undefine type => type = name
  | define _ | defineType .. | defineSentence .. | setCompleter .. => false

/-- What a call asks for can be done: the pattern of a definition can be read and its name, if it
has one, can be given to a type; the type that is taken back or gets a completer is defined. -/
def Feasible (registry : Registry ε κ) (call : Call ε κ) : Prop :=
  match call with
  | undefine name | setCompleter name _ => registry.containsType name = true
  | define _ | defineType .. | defineSentence .. =>
    ∀ definition, call.definition? = some definition →
      (∃ pattern, Pattern.read definition.pattern = .ok pattern) ∧
        ∀ name, definition.name = some name → IsTypeName name

end Call

/-- The calls that succeeded, by their outcomes. -/
def succeeded (calls : List (Call ε κ)) (outcomes : List (Except GrammarError Unit)) :
    List (Call ε κ) :=
  (calls.zip outcomes).filterMap fun
    | (call, .ok ()) => some call
    | (_, .error _) => none

/-- The calls since a type was last taken back; all of them if it never was. -/
def since (name : String) (calls : List (Call ε κ)) : List (Call ε κ) :=
  calls.rtakeWhile fun call => !call.undefines name

/-- The definitions of a type or, without a name, of sentences among some calls. -/
def definitionsOf (owner : Option String) (calls : List (Call ε κ)) : List (Definition ε κ) :=
  (calls.filterMap Call.definition?).filter fun definition => definition.name = owner

/-- The completers that some calls set for a type. -/
def completersFor (name : String) (calls : List (Call ε κ)) : List κ :=
  calls.filterMap (Call.completerFor? name)

/-- The types are in the order of their names, each name once. -/
def Sorted (registry : Registry ε κ) : Prop :=
  registry.types.Pairwise fun former later => former.name < later.name

/-- What a registry holds after the calls that succeeded. -/
structure Holds (registry : Registry ε κ) (calls : List (Call ε κ)) : Prop where
  alternatives : ∀ name, List.Forall₂ Definition.Gives (definitionsOf (some name) (since name calls))
    (registry.alternatives name)
  owned : ∀ name, ∀ alternative ∈ registry.alternatives name, alternative.owner = some name
  contains : ∀ name, registry.containsType name = true ↔ registry.alternatives name ≠ []
  sentences : List.Forall₂ Definition.Gives (definitionsOf none calls) registry.sentences
  /-- The completer of a type is the last one that was set since it was last taken back. -/
  completers : ∀ name,
    registry.typeCompleter? name = (completersFor name (since name calls)).getLast?
  attached : ∀ name, (registry.typeCompleter? name).isSome = true ↔
    registry.containsType name = true ∧ completersFor name (since name calls) ≠ []
  names : ∀ name ∈ registry.typeNames, IsTypeName name
  sorted : registry.Sorted

/-! ### Looking up -/

theorem alternatives_eq (registry : Registry ε κ) (name : String) :
    registry.alternatives name = (registry.entry? name).elim [] TypeEntry.alternatives := by
  unfold alternatives
  cases registry.entry? name <;> rfl

private theorem name_of_mem_addAlternative {name : String} {added : Alternative ε κ}
    {entries : List (TypeEntry ε κ)} {entry : TypeEntry ε κ}
    (member : entry ∈ addAlternative name added entries) :
    entry.name = name ∨ ∃ known ∈ entries, known.name = entry.name := by
  induction entries with
  | nil => exact .inl (congrArg TypeEntry.name (List.mem_singleton.mp member))
  | cons first rest ih =>
    rw [addAlternative] at member
    split at member
    next same =>
      rcases List.mem_cons.mp member with rfl | later
      · exact .inl same
      · exact .inr ⟨entry, List.mem_cons_of_mem _ later, rfl⟩
    next =>
      split at member
      next =>
        rcases List.mem_cons.mp member with rfl | later
        · exact .inl rfl
        · exact .inr ⟨entry, later, rfl⟩
      next =>
        rcases List.mem_cons.mp member with rfl | later
        · exact .inr ⟨entry, List.mem_cons_self, rfl⟩
        · refine (ih later).imp_right ?_
          rintro ⟨known, listed, same⟩
          exact ⟨known, List.mem_cons_of_mem _ listed, same⟩

private theorem sorted_addAlternative {name : String} {added : Alternative ε κ}
    {entries : List (TypeEntry ε κ)}
    (sorted : entries.Pairwise fun former later => former.name < later.name) :
    (addAlternative name added entries).Pairwise fun former later => former.name < later.name := by
  induction entries with
  | nil => exact List.pairwise_singleton ..
  | cons first rest ih =>
    obtain ⟨before, rest_sorted⟩ := List.pairwise_cons.mp sorted
    rw [addAlternative]
    split
    next => exact List.pairwise_cons.mpr ⟨before, rest_sorted⟩
    next different =>
      split
      next less =>
        refine List.pairwise_cons.mpr ⟨fun entry member => ?_, sorted⟩
        rcases List.mem_cons.mp member with rfl | later
        · exact less
        · exact less.trans (before entry later)
      next notLess =>
        -- Whatever is in the longer rest has the new name or one that was there, and both are later.
        refine List.pairwise_cons.mpr ⟨fun entry member => ?_, ih rest_sorted⟩
        rcases name_of_mem_addAlternative member with same | ⟨known, listed, same⟩
        · exact same ▸ lt_of_le_of_ne (not_lt.mp notLess) different
        · exact same ▸ before known listed

/-- A type is found with one more alternative, and all others as before. -/
private theorem find_addAlternative {name : String} {added : Alternative ε κ}
    {entries : List (TypeEntry ε κ)}
    (sorted : entries.Pairwise fun former later => former.name < later.name) (other : String) :
    (addAlternative name added entries).find? (fun entry => entry.name = other) =
      if other = name then
        some ⟨name, (entries.find? fun entry => entry.name = name).elim [] TypeEntry.alternatives
          ++ [added]⟩
      else entries.find? fun entry => entry.name = other := by
  induction entries with
  | nil => simp [addAlternative, eq_comm]
  | cons first rest ih =>
    obtain ⟨before, rest_sorted⟩ := List.pairwise_cons.mp sorted
    rw [addAlternative]
    split
    next same =>
      subst same
      by_cases wanted : other = first.name
      · simp [wanted]
      · simp [wanted, Ne.symm wanted]
    next different =>
      split
      next less =>
        -- All that follows is in order and behind the new name, so the name was not there.
        have absent : (first :: rest).find? (fun entry => entry.name = name) = none := by
          refine List.find?_eq_none.mpr fun entry member => ?_
          rcases List.mem_cons.mp member with rfl | later
          · simpa using different
          · simpa using (less.trans (before entry later)).ne'
        by_cases wanted : other = name
        · simp [wanted, absent]
        · simp [wanted, Ne.symm wanted]
      next =>
        by_cases found : first.name = other
        · subst found
          simp [different]
        · simp only [List.find?_cons, found, different, decide_false, ih rest_sorted]

/-! ### What each change does -/

section

variable {registry registry' : Registry ε κ}

/-- A definition succeeds if its pattern can be read and its name can be given to a type. -/
theorem define_ok_iff {definition : Definition ε κ} :
    (∃ registry', registry.define definition = .ok registry') ↔
      (∃ pattern, Pattern.read definition.pattern = .ok pattern) ∧
        ∀ name, definition.name = some name → IsTypeName name := by
  unfold define
  cases Pattern.read definition.pattern with
  | error error => simp [bind, Except.bind]
  | ok pattern =>
    cases owner : definition.name with
    | none => simp [bind, Except.bind, pure, Except.pure]
    | some name =>
      simp only [← checkTypeName_ok_iff, bind, Except.bind]
      cases checked : checkTypeName name <;> simp [pure, Except.pure, checked]

theorem undefine_ok_iff {name : String} : registry.undefine name = .ok registry' ↔
    registry.containsType name = true ∧ registry' = { registry with
      types := registry.types.filter fun entry => entry.name ≠ name
      completers := registry.completers.filter fun entry => entry.1 ≠ name } := by
  unfold undefine
  split
  next known => simp [known, eq_comm]
  next unknown => simp [unknown]

theorem setCompleter_ok_iff {name : String} {completer : κ} :
    registry.setCompleter name completer = .ok registry' ↔
      registry.containsType name = true ∧ registry' = { registry with
        completers :=
          (name, completer) :: registry.completers.filter (fun entry => entry.1 ≠ name) } := by
  unfold setCompleter
  split
  next known => simp [known, eq_comm]
  next unknown => simp [unknown]

theorem entry?_define {name : String} {alternative : Alternative ε κ} (sorted : registry.Sorted)
    (other : String) :
    entry? { registry with types := addAlternative name alternative registry.types } other =
      if other = name then some ⟨name, registry.alternatives name ++ [alternative]⟩
      else registry.entry? other := by
  rw [alternatives_eq]
  exact find_addAlternative sorted other

theorem entry?_undefine {completers : List (String × κ)} (name other : String) :
    entry? { registry with
      completers, types := registry.types.filter fun entry => entry.name ≠ name } other =
      if other = name then none else registry.entry? other := by
  unfold entry?
  simp only [List.find?_filter]
  split
  next same =>
    refine List.find?_eq_none.mpr fun entry _ => ?_
    simp [same]
  next different =>
    congr 1
    funext entry
    by_cases wanted : entry.name = other <;> simp [wanted, different]

theorem lookup_filter (name other : String) (completers : List (String × κ)) :
    (completers.filter fun entry => entry.1 ≠ name).lookup other =
      if other = name then none else completers.lookup other := by
  induction completers with
  | nil => simp
  | cons entry rest ih =>
    obtain ⟨type, completer⟩ := entry
    rw [List.filter_cons]
    split
    next kept =>
      have different : type ≠ name := by simpa using kept
      rw [List.lookup_cons, List.lookup_cons, ih]
      by_cases wanted : other = type
      · simp [wanted, different]
      · simp [beq_eq_false_iff_ne.mpr wanted]
    next dropped =>
      have same : type = name := by simpa using dropped
      rw [ih, List.lookup_cons, same]
      by_cases wanted : other = name
      · simp [wanted]
      · simp [beq_eq_false_iff_ne.mpr wanted]

/-- The registry with one more alternative, behind the others of the same owner. -/
structure Grows (registry : Registry ε κ) (alternative : Alternative ε κ)
    (registry' : Registry ε κ) : Prop where
  alternatives : ∀ name, registry'.alternatives name =
    registry.alternatives name ++ if alternative.owner = some name then [alternative] else []
  contains : ∀ name, registry'.containsType name =
    (decide (alternative.owner = some name) || registry.containsType name)
  sentences : registry'.sentences =
    registry.sentences ++ if alternative.owner = none then [alternative] else []
  completers : registry'.completers = registry.completers
  names : ∀ name ∈ registry'.typeNames, alternative.owner = some name ∨ name ∈ registry.typeNames
  sorted : registry'.Sorted

theorem grows_type {name : String} {alternative : Alternative ε κ} (sorted : registry.Sorted)
    (owner : alternative.owner = some name) : registry.Grows alternative
      { registry with types := addAlternative name alternative registry.types } where
  alternatives other := by
    rw [alternatives_eq, entry?_define sorted, owner]
    by_cases same : other = name
    · simp [same]
    · simp [same, Ne.symm same, alternatives_eq]
  contains other := by
    rw [containsType, entry?_define sorted, owner]
    by_cases same : other = name
    · simp [same]
    · simp [same, Ne.symm same, containsType]
  sentences := by simp [owner]
  completers := rfl
  names other member := by
    obtain ⟨entry, listed, rfl⟩ := List.mem_map.mp member
    rcases name_of_mem_addAlternative listed with new | ⟨known, before, same⟩
    · exact .inl (owner.trans (congrArg some new.symm))
    · exact .inr (same ▸ List.mem_map_of_mem before)
  sorted := sorted_addAlternative sorted

theorem grows_sentence {alternative : Alternative ε κ} (sorted : registry.Sorted)
    (owner : alternative.owner = none) : registry.Grows alternative
      { registry with sentences := registry.sentences ++ [alternative] } where
  alternatives name := by simp [owner, alternatives_eq, entry?]
  contains name := by simp [owner, containsType, entry?]
  sentences := by simp [owner]
  completers := rfl
  names name member := .inr member
  sorted := sorted

/-- A definition that succeeds adds what it describes. -/
theorem define_grows {definition : Definition ε κ} (sorted : registry.Sorted)
    (defined : registry.define definition = .ok registry') :
    ∃ alternative, definition.Gives alternative ∧ registry.Grows alternative registry' := by
  unfold define at defined
  obtain ⟨pattern, known, defined⟩ := exists_of_bind_ok defined
  refine ⟨_, ⟨pattern, known, rfl⟩, ?_⟩
  cases owner : definition.name with
  | none =>
    rw [owner] at defined
    obtain rfl := Except.ok.inj defined
    exact grows_sentence sorted rfl
  | some name =>
    rw [owner] at defined
    obtain ⟨_, -, same⟩ := exists_of_bind_ok defined
    obtain rfl := Except.ok.inj same
    exact grows_type sorted rfl

theorem alternatives_undefine {completers : List (String × κ)} (name other : String) :
    alternatives { registry with
      completers, types := registry.types.filter fun entry => entry.name ≠ name } other =
      if other = name then [] else registry.alternatives other := by
  rw [alternatives_eq, entry?_undefine]
  split
  · rfl
  · exact (alternatives_eq registry other).symm

theorem containsType_undefine {completers : List (String × κ)} (name other : String) :
    containsType { registry with
      completers, types := registry.types.filter fun entry => entry.name ≠ name } other =
      if other = name then false else registry.containsType other := by
  rw [containsType, entry?_undefine]
  split <;> rfl

/-! ### Calls one after the other -/

variable {calls : List (Call ε κ)} {call : Call ε κ}

theorem since_concat (name : String) : since name (calls ++ [call]) =
    if call.undefines name then [] else since name calls ++ [call] := by
  unfold since
  rw [List.rtakeWhile_concat]
  cases call.undefines name <;> simp

theorem definitionsOf_concat (owner : Option String) : definitionsOf owner (calls ++ [call]) =
    definitionsOf owner calls ++ call.definition?.toList.filter fun definition =>
      definition.name = owner := by
  unfold definitionsOf
  rw [List.filterMap_append, List.filter_append]
  cases known : call.definition? <;> simp [known]

theorem completersFor_concat (name : String) : completersFor name (calls ++ [call]) =
    completersFor name calls ++ (call.completerFor? name).toList := by
  unfold completersFor
  rw [List.filterMap_append]
  cases known : call.completerFor? name <;> simp [known]

theorem mapError_ok_iff {δ ε' α : Type} {result : Except δ α} {f : δ → ε'} {a : α} :
    result.mapError f = .ok a ↔ result = .ok a := by
  cases result <;> simp [Except.mapError]

/-- A call that succeeds defines something, takes back a type, or sets a completer. -/
theorem Call.apply_ok (done : call.apply registry = .ok registry') :
    (∃ definition, call.definition? = some definition ∧
      registry.define definition = .ok registry') ∨
    (∃ name, call = .undefine name ∧ registry.undefine name = .ok registry') ∨
    ∃ name completer, call = .setCompleter name completer ∧
      registry.setCompleter name completer = .ok registry' := by
  cases call with
  | define definition => exact .inl ⟨_, rfl, mapError_ok_iff.mp done⟩
  | defineType name pattern evaluator => exact .inl ⟨_, rfl, mapError_ok_iff.mp done⟩
  | defineSentence pattern evaluator => exact .inl ⟨_, rfl, mapError_ok_iff.mp done⟩
  | undefine name => exact .inr (.inl ⟨name, rfl, mapError_ok_iff.mp done⟩)
  | setCompleter name completer =>
    exact .inr (.inr ⟨name, completer, rfl, mapError_ok_iff.mp done⟩)

/-- A call that defines something does nothing else. -/
theorem Call.only_defines {definition : Definition ε κ} (asked : call.definition? = some definition)
    (name : String) : call.undefines name = false ∧ call.completerFor? name = none := by
  cases call with
  | define _ => exact ⟨rfl, rfl⟩
  | defineType _ _ _ => exact ⟨rfl, rfl⟩
  | defineSentence _ _ => exact ⟨rfl, rfl⟩
  | undefine _ => cases asked
  | setCompleter _ _ => cases asked

/-- What is made of the definitions of an owner belongs to that owner. -/
theorem owner_of_gives {owner : Option String} {definitions : List (Definition ε κ)}
    {alternatives : List (Alternative ε κ)}
    (given : List.Forall₂ Definition.Gives definitions alternatives)
    (named : ∀ definition ∈ definitions, definition.name = owner) :
    ∀ alternative ∈ alternatives, alternative.owner = owner := by
  induction given with
  | nil => simp
  | cons gives _ ih =>
    obtain ⟨first, others⟩ := List.forall_mem_cons.mp named
    obtain ⟨pattern, -, rfl⟩ := gives
    exact List.forall_mem_cons.mpr ⟨first, ih others⟩

theorem name_of_mem_definitionsOf {owner : Option String} {definition : Definition ε κ}
    (member : definition ∈ definitionsOf owner calls) : definition.name = owner := by
  simpa using (List.mem_filter.mp member).2

/-- If only defined types have completers, a type has one just if it is defined and one was set. -/
theorem attached_iff {completer? : Option κ} {set : List κ} {defined : Bool}
    (last : completer? = set.getLast?) (only : completer?.isSome = true → defined = true) :
    completer?.isSome = true ↔ defined = true ∧ set ≠ [] := by
  constructor
  · intro some
    refine ⟨only some, ?_⟩
    rintro rfl
    simp [last] at some
  · rintro ⟨-, found⟩
    simpa [last] using found

theorem empty_holds : Holds ({} : Registry ε κ) [] where
  alternatives _ := .nil
  owned _ := by simp [alternatives, entry?]
  contains _ := by simp [containsType, alternatives, entry?]
  sentences := .nil
  completers _ := rfl
  attached _ := by simp [typeCompleter?, containsType, entry?]
  names := by simp [typeNames]
  sorted := .nil

/-- A definition is added behind the others of its type or behind the other sentences. -/
theorem Holds.define {definition : Definition ε κ} (holds : registry.Holds calls)
    (asked : call.definition? = some definition)
    (defined : registry.define definition = .ok registry') : registry'.Holds (calls ++ [call]) := by
  -- A definition takes nothing back and sets no completer, so it only adds to the definitions.
  have kept (name : String) : since name (calls ++ [call]) = since name calls ++ [call] := by
    simp [since_concat, (Call.only_defines asked name).1]
  have unset (name : String) :
      completersFor name (since name (calls ++ [call])) = completersFor name (since name calls) := by
    simp [kept, completersFor_concat, (Call.only_defines asked name).2]
  have added (owner : Option String) (calls : List (Call ε κ)) :
      definitionsOf owner (calls ++ [call]) =
        definitionsOf owner calls ++ if definition.name = owner then [definition] else [] := by
    rw [definitionsOf_concat, asked]
    by_cases same : definition.name = owner <;> simp [same]
  have admitted := (define_ok_iff.mp ⟨_, defined⟩).2
  obtain ⟨alternative, gives, grows⟩ := define_grows holds.sorted defined
  have owner : alternative.owner = definition.name := by
    obtain ⟨pattern, -, rfl⟩ := gives
    rfl
  have alternatives (name : String) : List.Forall₂ Definition.Gives
      (definitionsOf (some name) (since name (calls ++ [call]))) (registry'.alternatives name) := by
    rw [kept, added, grows.alternatives, owner]
    refine List.rel_append (holds.alternatives name) ?_
    by_cases same : definition.name = some name <;> simp [same, gives]
  have completer (name : String) : registry'.typeCompleter? name = registry.typeCompleter? name := by
    rw [typeCompleter?, grows.completers, typeCompleter?]
  have completers (name : String) : registry'.typeCompleter? name =
      (completersFor name (since name (calls ++ [call]))).getLast? := by
    rw [unset, completer, holds.completers name]
  exact
    { alternatives, completers
      owned := fun name => owner_of_gives (alternatives name) fun _ => name_of_mem_definitionsOf
      contains := fun name => by
        rw [grows.contains, grows.alternatives]
        by_cases same : alternative.owner = some name
        · simp [same]
        · simpa [same] using holds.contains name
      sentences := by
        rw [added, grows.sentences, owner]
        refine List.rel_append holds.sentences ?_
        by_cases same : definition.name = none <;> simp [same, gives]
      attached := fun name => attached_iff (completers name) fun some => by
        simp [grows.contains, ((holds.attached name).mp (completer name ▸ some)).1]
      names := fun name member => by
        rcases grows.names name member with new | before
        · exact admitted name (owner ▸ new)
        · exact holds.names name before
      sorted := grows.sorted }

/-- A type that is taken back is as if it had never been defined. -/
theorem Holds.undefine {name : String} (holds : registry.Holds calls)
    (undefined : registry.undefine name = .ok registry') :
    registry'.Holds (calls ++ [.undefine name]) := by
  obtain ⟨-, rfl⟩ := undefine_ok_iff.mp undefined
  -- What was said about this name before is forgotten; about other names nothing is said.
  have forgotten : since name (calls ++ [.undefine name]) = [] := by
    simp [since_concat, Call.undefines]
  have kept {other : String} (different : other ≠ name) :
      since other (calls ++ [.undefine name]) = since other calls ++ [.undefine name] := by
    simp [since_concat, Call.undefines, different.symm]
  have undefining (owner : Option String) (calls : List (Call ε κ)) :
      definitionsOf owner (calls ++ [.undefine name]) = definitionsOf owner calls := by
    simp [definitionsOf_concat, Call.definition?]
  have unsetting (other : String) (calls : List (Call ε κ)) :
      completersFor other (calls ++ [.undefine name]) = completersFor other calls := by
    simp [completersFor_concat, Call.completerFor?]
  exact
    { alternatives := fun other => by
        rw [alternatives_undefine]
        split
        next same => simp [same, forgotten, definitionsOf]
        next different => simpa [kept different, undefining] using holds.alternatives other
      owned := fun other alternative member => by
        rw [alternatives_undefine] at member
        exact holds.owned other alternative (List.mem_ite_nil_left.mp member).2
      contains := fun other => by
        rw [alternatives_undefine, containsType_undefine]
        split
        next => simp
        next => exact holds.contains other
      sentences := by simpa [undefining] using holds.sentences
      completers := fun other => by
        rw [typeCompleter?, lookup_filter]
        split
        next same => simp [same, forgotten, completersFor]
        next different =>
          rw [kept different, unsetting]
          exact holds.completers other
      attached := fun other => by
        rw [typeCompleter?, lookup_filter, containsType_undefine]
        split
        next => simp
        next different =>
          rw [kept different, unsetting]
          exact holds.attached other
      names := fun other member => by
        obtain ⟨entry, listed, rfl⟩ := List.mem_map.mp member
        exact holds.names _ (List.mem_map_of_mem (List.mem_filter.mp listed).1)
      sorted := holds.sorted.filter _ }

/-- A completer that is set replaces the one that its type has. -/
theorem Holds.setCompleter {name : String} {completer : κ} (holds : registry.Holds calls)
    (changed : registry.setCompleter name completer = .ok registry') :
    registry'.Holds (calls ++ [.setCompleter name completer]) := by
  obtain ⟨known, rfl⟩ := setCompleter_ok_iff.mp changed
  -- Nothing but the completers that were set for this name is longer by one.
  have kept (other : String) : since other (calls ++ [.setCompleter name completer]) =
      since other calls ++ [.setCompleter name completer] := by
    simp [since_concat, Call.undefines]
  have defining (owner : Option String) (calls : List (Call ε κ)) :
      definitionsOf owner (calls ++ [.setCompleter name completer]) = definitionsOf owner calls := by
    simp [definitionsOf_concat, Call.definition?]
  have setting (other : String) (calls : List (Call ε κ)) :
      completersFor other (calls ++ [.setCompleter name completer]) =
        completersFor other calls ++ if name = other then [completer] else [] := by
    rw [completersFor_concat, Call.completerFor?]
    split <;> rfl
  have completers (other : String) : typeCompleter? { registry with
      completers := (name, completer) :: registry.completers.filter fun entry => entry.1 ≠ name }
        other =
      (completersFor other (since other (calls ++ [.setCompleter name completer]))).getLast? := by
    rw [kept, setting, typeCompleter?, List.lookup_cons, lookup_filter]
    by_cases same : other = name
    · simp [same]
    · simpa [beq_eq_false_iff_ne.mpr same, same, Ne.symm same, typeCompleter?] using
        holds.completers other
  exact
    { completers
      alternatives := fun other => by
        rw [kept, defining]
        exact holds.alternatives other
      owned := holds.owned
      contains := holds.contains
      sentences := by
        rw [defining]
        exact holds.sentences
      attached := fun other => attached_iff (completers other) fun some => by
        by_cases same : other = name
        · exact same ▸ known
        · rw [typeCompleter?, List.lookup_cons, beq_eq_false_iff_ne.mpr same, lookup_filter,
            if_neg same] at some
          exact ((holds.attached other).mp some).1
      names := holds.names
      sorted := holds.sorted }

/-- A call that succeeds is the last one that the contents follow from. -/
theorem Holds.apply (holds : registry.Holds calls) (done : call.apply registry = .ok registry') :
    registry'.Holds (calls ++ [call]) := by
  rcases Call.apply_ok done with ⟨definition, asked, defined⟩ | ⟨name, rfl, undefined⟩ |
    ⟨name, completer, rfl, changed⟩
  · exact holds.define asked defined
  · exact holds.undefine undefined
  · exact holds.setCompleter changed

theorem Call.perform_run (call : Call ε κ) (registry : Registry ε κ) :
    call.perform.run registry = match call.apply registry with
      | .ok next => (.ok (), next)
      | .error error => (.error error, registry) := by
  rw [perform]
  simp only [StateT.run_bind, StateT.run_get, pure_bind]
  cases call.apply registry <;> rfl

theorem Call.performAll_cons (call : Call ε κ) (rest : List (Call ε κ)) (registry : Registry ε κ) :
    (performAll (call :: rest)).run registry =
      ((call.perform.run registry).1 ::
          ((performAll rest).run (call.perform.run registry).2).1,
        ((performAll rest).run (call.perform.run registry).2).2) := by
  rw [performAll, List.mapM_cons]
  rfl

/-- The contents after further calls follow from those among them that succeed. -/
theorem Holds.performAll (holds : registry.Holds calls) (further : List (Call ε κ)) :
    ((Call.performAll further).run registry).2.Holds
      (calls ++ succeeded further ((Call.performAll further).run registry).1) := by
  induction further generalizing registry calls with
  | nil =>
    rw [succeeded, List.zip_nil_left, List.filterMap_nil, List.append_nil]
    exact holds
  | cons call rest ih =>
    rw [Call.performAll_cons, call.perform_run]
    cases outcome : call.apply registry with
    -- A call that fails neither changes the registry nor counts among those that succeeded.
    | error error => exact ih holds
    | ok next =>
      have contents := ih (holds.apply outcome)
      rwa [List.append_assoc, List.singleton_append] at contents

/-- A call succeeds just if what it asks for can be done. -/
theorem Call.apply_ok_iff : (∃ registry', call.apply registry = .ok registry') ↔
    call.Feasible registry := by
  cases call with
  | define definition => simp [apply, mapError_ok_iff, define_ok_iff, Feasible, definition?]
  | defineType name pattern evaluator =>
    simp [apply, mapError_ok_iff, Registry.defineType, define_ok_iff, Feasible, definition?]
  | defineSentence pattern evaluator =>
    simp [apply, mapError_ok_iff, Registry.defineSentence, define_ok_iff, Feasible, definition?]
  | undefine name => simp [apply, mapError_ok_iff, undefine_ok_iff, Feasible]
  | setCompleter name completer => simp [apply, mapError_ok_iff, setCompleter_ok_iff, Feasible]

theorem Call.perform_outcome (call : Call ε κ) (registry : Registry ε κ) :
    ((call.perform.run registry).1 = .ok () ↔ call.Feasible registry) ∧
      ∀ error, (call.perform.run registry).1 = .error error →
        (call.perform.run registry).2 = registry := by
  rw [call.perform_run, ← Call.apply_ok_iff]
  cases call.apply registry <;> simp

/-- Whatever calls are made on an empty registry, its contents follow from those that succeed. Any
further call succeeds just if what it asks for can be done, and changes nothing if it fails. -/
theorem contents_of_calls (calls : List (Call ε κ)) :
    let (outcomes, registry) := (Call.performAll calls).run {}
    registry.Holds (succeeded calls outcomes) ∧
      ∀ call : Call ε κ,
        ((call.perform.run registry).1 = .ok () ↔ call.Feasible registry) ∧
        ∀ error, (call.perform.run registry).1 = .error error →
          (call.perform.run registry).2 = registry :=
  ⟨empty_holds.performAll calls, fun call => call.perform_outcome _⟩

end

end Registry
end SentenceGrammar
