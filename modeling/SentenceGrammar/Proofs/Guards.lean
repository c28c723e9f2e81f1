import SentenceGrammar.Proofs.Replay
import SentenceGrammar.Proofs.Soundness

/-!
# Guarded searches

Every recursion of a search is bounded by a number: of types within each other, of units of a
repetition, of sentences in a row. A guarded search is the same search, but it raises an alarm where
a number runs out, and where what should make progress does not. The alarm may do anything to what
the search remembers and has noted. So if a guarded search ends in the same state as the search
itself, whatever the alarm is, then no alarm was raised.
-/
namespace SentenceGrammar.Matching

variable {ε κ ρ α β : Type}

namespace Guarded

variable (alarm : Search ε κ Unit)

/-- It is an alarm if no step is left, or if the next one does not begin further on. -/
def readRepeated (scope : Scope ε κ) (unit : Cursor → Search ε κ (Readings ε κ))
    (quantifier : Quantifier) :
    Nat → Nat → Cursor → StateT (Repeated ε κ) (Search ε κ) (Chains ε κ)
  | 0, _, _ => do
    alarm
    return {}
  | steps + 1, done, start => do
    match (← get).lookup (start.offset, done) with
    | some known => return known
    | none =>
      let further : Chains ε κ ←
        if quantifier.allowsMore done then do
          let opening ← readSeparator scope done start
          match opening.whole with
          | [] => pure opening
          | first :: _ => do
            let units ← unit first.stop
            let tails ← units.whole.mapM fun found =>
              if found.stop.offset = start.offset then pure {}
              else do
                if found.stop.offset ≤ start.offset then alarm
                let rest ← readRepeated scope unit quantifier steps
                  (nextCount quantifier done) found.stop
                return rest.after (first.nodes ++ [found.node])
            pure ⟨tails.flatMap Chains.whole,
              opening.cut ++ units.cut.map (fun node => first.nodes ++ [node]) ++
                tails.flatMap Chains.cut⟩
        else pure {}
      let here := if quantifier.least ≤ done then [⟨start, []⟩] else []
      let result : Chains ε κ := ⟨firstPerStop (further.whole ++ here), further.cut⟩
      modify fun known => ((start.offset, done), result) :: known
      return result

def readRepetition (scope : Scope ε κ) (named : TypeReader ε κ) (slot : Placeholder)
    (start : Cursor) : Search ε κ (Readings ε κ) := do
  let (repeated, _) ← (readRepeated alarm scope (readUnit scope named slot) slot.quantifier
    (start.rest.length + 1) 0 start).run []
  let kind : NodeKind ε κ := .repetition slot.quantifier
  return ⟨repeated.whole.map fun found =>
      ⟨found.stop, .covering start found.stop (some slot.name) kind found.nodes⟩,
    repeated.cut.map fun children => .cutOff start (some slot.name) kind children⟩

def readItem (scope : Scope ε κ) (named : TypeReader ε κ) (item : Item) (start : Cursor) :
    Search ε κ (Readings ε κ) :=
  match item with
  | .literal text _ => readLiteral scope text start
  | .placeholder slot =>
    if slot.target.single?.isNone ∧ slot.quantifier ≠ .one then
      readRepetition alarm scope named slot start
    else readPlaceholder scope named slot start

def readItems (scope : Scope ε κ) (named : TypeReader ε κ) :
    List Item → List (Chain ε κ) → Search ε κ (Chains ε κ)
  | [], chains => return ⟨chains, []⟩
  | item :: rest, chains => do
    let found ← chains.mapM fun chain => do
      return (chain, ← readItem alarm scope named item chain.stop)
    let next := firstPerStop <| found.flatMap fun (chain, readings) =>
      readings.whole.map fun reading => ⟨reading.stop, chain.nodes ++ [reading.node]⟩
    let cut := found.flatMap fun (chain, readings) =>
      readings.cut.map fun node => chain.nodes ++ [node]
    let behind ← readItems scope named rest next
    return ⟨behind.whole, cut ++ behind.cut⟩

def readAlternatives (scope : Scope ε κ) (named : TypeReader ε κ)
    (alternatives : List (Alternative ε κ)) (start : Cursor) :
    Search ε κ (TypeReadings ε κ) := do
  let found ← alternatives.mapM fun alternative => do
    return (alternative, ← readItems alarm scope named alternative.pattern.items [⟨start, []⟩])
  let whole := found.flatMap fun (alternative, chains) =>
    chains.whole.map fun chain => (⟨chain.stop, alternative, chain.nodes⟩ : TypeReading ε κ)
  let cut := found.flatMap fun (alternative, chains) =>
    chains.cut.map fun nodes => (alternative, nodes)
  return ⟨keepNew (fun reading => reading.stop.offset) [] whole, cut⟩

/-- It is an alarm if no level is left, or if two of the types being read are the same at the same
place. -/
def readType : Nat → TypeReader ε κ
  | 0, _, _, _ => do
    alarm
    return {}
  | levels + 1, scope, name, start => do
    match ← lookUp name start with
    | some known => return known
    | none =>
      if (name, start.offset) ∈ scope.active then return {}
      else
        let inner := { scope with active := scope.active ++ [(name, start.offset)] }
        if ¬inner.active.Nodup then alarm
        let readings ← readAlternatives alarm inner (readType levels)
          (scope.registry.alternatives name) start
        remember name start readings
        return readings

def advance (scope : Scope ε κ) (named : TypeReader ε κ) (first : Bool) (step : Step ε κ) :
    Search ε κ (List (Step ε κ) × List (List (Node ε κ))) := do
  let atEnd := step.stop.rest = []
  if step.separated then
    if ¬first ∧ ¬atEnd then expect scope step.stop .endOfInput
    let readings ← readAlternatives alarm scope named scope.registry.sentences step.stop
    return (readings.whole.map step.extend,
      readings.cut.map fun (chosen, children) =>
        step.nodes ++ [.cutOff step.stop none (.alternative chosen) children])
  else
    if ¬atEnd then expect scope step.stop .sentenceBreak
    return ([], [])

/-- It is an alarm if no round is left, or if a step that is kept stops where an earlier one
stopped. -/
def rounds (scope : Scope ε κ) (named : TypeReader ε κ) :
    Nat → Bool → List Nat → List (Step ε κ) → ScriptReadings ε κ → Search ε κ (ScriptReadings ε κ)
  | 0, _, _, _, readings => do
    alarm
    return readings
  | left + 1, first, seen, frontier, readings => do
    let whole := match readings.whole with
      | some nodes => some nodes
      | none => (frontier.find? fun step => step.stop.rest.isEmpty).map Step.nodes
    if whole.isSome ∧ ¬scope.completing then return { readings with whole }
    else if frontier.isEmpty ∨ ¬(first ∨ scope.config.severalSentences) then
      if whole.isNone then frontier.forM fun step => expect scope step.stop .endOfInput
      return { readings with whole }
    else
      let found ← frontier.mapM (advance alarm scope named first)
      let next := keepNew (fun step => step.stop.offset) seen (found.flatMap Prod.fst)
      if ¬(next.map (fun step => step.stop.offset) ++ seen).Nodup then alarm
      rounds scope named left false (next.map (fun step => step.stop.offset) ++ seen) next
        ⟨whole, readings.cut ++ found.flatMap Prod.snd⟩

/-- The guarded search of a script, with so many levels and rounds. -/
def readScript (levels left : Nat) (scope : Scope ε κ) (start : Cursor) :
    Search ε κ (ScriptReadings ε κ) :=
  let (stop, leading) := readGap start
  rounds alarm scope (readType alarm levels) left true [stop.offset] [⟨stop, leading, true⟩] {}

end Guarded

/-! ### Agreement -/

/-- From every state in which what is remembered satisfies an invariant, two searches have the same
result and end in the same state. The invariant is kept, and the result satisfies an assertion. -/
def Agree (kept : Known ε κ → Prop) (one other : Search ε κ α) (post : α → Prop) : Prop :=
  ∀ progress, kept progress.known → one.run progress = other.run progress ∧
    post (other.run progress).1 ∧ kept (other.run progress).2.known

namespace Agree

variable {kept : Known ε κ → Prop} {post : β → Prop}

theorem refl {search : Search ε κ β} (ensured : Ensures kept search post) :
    Agree kept search search post :=
  fun progress held => ⟨rfl, ensured progress held⟩

theorem pure {result : β} (holds : post result) :
    Agree kept (Pure.pure result) (Pure.pure result) post := .refl (.pure holds)

theorem bind {one other : Search ε κ α} {next next' : α → Search ε κ β} {middle : α → Prop}
    (first : Agree kept one other middle)
    (further : ∀ a, middle a → Agree kept (next a) (next' a) post) :
    Agree kept (one >>= next) (other >>= next') post := by
  intro progress held
  obtain ⟨same, reached, kept'⟩ := first progress held
  rw [run_bind, run_bind, same]
  exact further _ reached _ kept'

/-- What one of them ensures may be assumed of both. -/
theorem ensuring {one other : Search ε κ β} (same : Agree kept one other fun _ => True)
    (ensured : Ensures kept other post) : Agree kept one other post :=
  fun progress held => ⟨(same progress held).1, ensured progress held⟩

theorem weaken {one other : Search ε κ β} {strong : β → Prop} (same : Agree kept one other strong)
    (weaker : ∀ result, strong result → post result) : Agree kept one other post := by
  intro progress held
  obtain ⟨equal, reached, kept'⟩ := same progress held
  exact ⟨equal, weaker _ reached, kept'⟩

theorem symm {one other : Search ε κ β} (same : Agree kept one other post) :
    Agree kept other one post := by
  intro progress held
  obtain ⟨equal, both⟩ := same progress held
  exact ⟨equal.symm, equal ▸ both⟩

theorem trans {one middle other : Search ε κ β} {weak : β → Prop}
    (first : Agree kept one middle weak) (second : Agree kept middle other post) :
    Agree kept one other post :=
  fun progress held =>
    ⟨(first progress held).1.trans (second progress held).1, (second progress held).2⟩

theorem mapM {one other : α → Search ε κ β} {list : List α} (post : α → β → Prop)
    (each : ∀ a ∈ list, Agree kept (one a) (other a) (post a)) :
    Agree kept (list.mapM one) (list.mapM other) (List.Forall₂ post list) := by
  induction list with
  | nil => exact .pure .nil
  | cons a rest ih =>
    rw [List.mapM_cons, List.mapM_cons]
    refine (each a List.mem_cons_self).bind fun b first => ?_
    refine (ih fun a member => each a (List.mem_cons_of_mem _ member)).bind fun others related => ?_
    exact .pure (.cons first related)

end Agree

/-- The same for searches with a state of their own. -/
def AgreeWith (kept : Known ε κ → Prop) (one other : StateT ρ (Search ε κ) α) (post : α → Prop) :
    Prop :=
  ∀ state, Agree kept (one.run state) (other.run state) fun result => post result.1

namespace AgreeWith

variable {kept : Known ε κ → Prop} {post : β → Prop}

theorem pure {result : β} (holds : post result) :
    AgreeWith kept (Pure.pure result : StateT ρ (Search ε κ) β) (Pure.pure result) post :=
  fun _ => .pure holds

theorem bind {one other : StateT ρ (Search ε κ) α} {next next' : α → StateT ρ (Search ε κ) β}
    {middle : α → Prop} (first : AgreeWith kept one other middle)
    (further : ∀ a, middle a → AgreeWith kept (next a) (next' a) post) :
    AgreeWith kept (one >>= next) (other >>= next') post := by
  intro state
  rw [StateT.run_bind, StateT.run_bind]
  exact (first state).bind fun result reached => further _ reached _

theorem lift {one other : Search ε κ β} (same : Agree kept one other post) :
    AgreeWith kept (StateT.lift one : StateT ρ (Search ε κ) β) (StateT.lift other) post :=
  fun _ => same.bind fun _ reached => .pure reached

theorem get : AgreeWith kept (MonadState.get : StateT ρ (Search ε κ) ρ) MonadState.get
    fun _ => True :=
  fun _ => .pure trivial

theorem modify (change : ρ → ρ) :
    AgreeWith kept (modify change : StateT ρ (Search ε κ) PUnit) (modify change) fun _ => True :=
  fun _ => .pure trivial

theorem mapM {one other : α → StateT ρ (Search ε κ) β} {list : List α}
    (each : ∀ a ∈ list, AgreeWith kept (one a) (other a) fun _ => True) :
    AgreeWith kept (list.mapM one) (list.mapM other) fun _ => True := by
  induction list with
  | nil => exact .pure trivial
  | cons a rest ih =>
    rw [List.mapM_cons, List.mapM_cons]
    refine (each a List.mem_cons_self).bind fun b _ => ?_
    refine (ih fun a member => each a (List.mem_cons_of_mem _ member)).bind fun others _ => ?_
    exact .pure trivial

end AgreeWith

/-! ### Searches for items -/

variable {rules : String → List (Alternative ε κ)} {text : List Char} {kept : Known ε κ → Prop}
  {scope : Scope ε κ} {guarded named : TypeReader ε κ} {start : Cursor}
  {alarm : Search ε κ Unit}

variable (rules text kept scope guarded named) in
/-- At every place of the text, both read every defined type in the same way, and find only
derivations. -/
structure NamedAgree : Prop where
  sound : NamedSound rules text kept scope named
  same : ∀ name (place : Cursor), place.In text → scope.registry.containsType name = true →
    Agree kept (guarded scope name place) (named scope name place) fun _ => True

theorem readUnit_agree (agree : NamedAgree rules text kept scope guarded named)
    {slot : Placeholder} (several : slot.target.single? = none) (inside : start.In text) :
    Agree kept (readUnit scope guarded slot start) (readUnit scope named slot start) fun readings =>
      ∀ reading ∈ readings.whole,
        DerivesUnit rules scope.config slot start reading.stop reading.node := by
  have sound := readUnit_derives agree.sound several inside
  cases target : slot.target with
  | named type =>
    refine Agree.ensuring ?_ sound
    simp only [readUnit, target, readNamed]
    split
    next defined => exact (agree.same type start inside defined).bind fun _ _ => .pure trivial
    next => exact .refl (.afterExpect (.pure trivial))
  | builtin type =>
    simp only [readUnit, target] at sound ⊢
    exact .refl sound
  | charClass set =>
    simp only [readUnit, target] at sound ⊢
    exact .refl sound

theorem readRepeated_agree (agree : NamedAgree rules text kept scope guarded named)
    {slot : Placeholder} (several : slot.target.single? = none) {steps steps' : Nat}
    (enough : start.rest.length < steps) (enough' : start.rest.length < steps') (done : Nat)
    (inside : start.In text) :
    AgreeWith kept
      (Guarded.readRepeated alarm scope (readUnit scope guarded slot) slot.quantifier steps done
        start)
      (readRepeated scope (readUnit scope named slot) slot.quantifier steps' done start)
      fun _ => True := by
  induction steps generalizing steps' done start with
  | zero => omega
  | succ steps ih =>
    obtain ⟨steps', rfl⟩ := Nat.exists_eq_succ_of_ne_zero (Nat.ne_of_gt (Nat.zero_lt_of_lt enough'))
    rw [Guarded.readRepeated, readRepeated]
    refine AgreeWith.get.bind fun known _ => ?_
    cases known.lookup (start.offset, done) with
    | some chains => exact .pure trivial
    | none =>
      dsimp only
      simp only [pure_bind]
      split
      · refine (AgreeWith.lift (.refl (readSeparator_openings done))).bind fun opening opened => ?_
        cases whole : opening.whole with
        | nil => exact (AgreeWith.modify _).bind fun _ _ => .pure trivial
        | cons first others =>
          have separator : Opening scope.config done start first.stop first.nodes := by
            rw [← mem_openings, ← opened, whole]
            exact List.mem_cons_self
          obtain ⟨_, before⟩ := separator.passes
          refine (AgreeWith.lift (readUnit_agree agree several (inside.passes before))).bind
            fun units derived => ?_
          refine (AgreeWith.mapM fun found member => ?_).bind fun tails _ =>
            (AgreeWith.modify _).bind fun _ _ => .pure trivial
          obtain ⟨_, behind⟩ := (derived found member).passes
          have moved := before.trans behind
          split
          next => exact .pure trivial
          -- Behind a unit that moves on, the offset is larger and less text is left.
          next moves =>
            have further := moved.offset_le
            have shorter := moved.rest_lt_iff.mpr moves
            have quiet : ¬found.stop.offset ≤ start.offset := by omega
            rw [if_neg quiet]
            refine (ih (by omega) (by omega) _ (inside.passes moved)).bind fun rest _ => ?_
            exact .pure trivial
      · exact (AgreeWith.modify _).bind fun _ _ => .pure trivial

/-- Single characters are read without reading any type. -/
theorem readPlaceholder_single {slot : Placeholder} {accepts : Char → Bool}
    (single : slot.target.single? = some accepts) (named named' : TypeReader ε κ) :
    readPlaceholder scope named slot start = readPlaceholder scope named' slot start := by
  cases target : slot.target with
  | builtin type =>
    have known : type.accepts? = some accepts := by simpa [target, Target.single?] using single
    simp only [readPlaceholder, target, known]
  | charClass set => simp only [readPlaceholder, target]
  | named type => simp [target, Target.single?] at single

theorem readItem_agree (agree : NamedAgree rules text kept scope guarded named) (item : Item)
    (inside : start.In text) :
    Agree kept (Guarded.readItem alarm scope guarded item start) (readItem scope named item start)
      fun readings => ∀ reading ∈ readings.whole,
        DerivesItem rules scope.config item start reading.stop reading.node := by
  refine Agree.ensuring ?_ (readItem_derives agree.sound item inside)
  cases item with
  | literal text span => exact .refl ((readLiteral_words text).weaken fun _ _ => trivial)
  | placeholder slot =>
    rw [Guarded.readItem, readItem]
    cases single : slot.target.single? with
    | some accepts =>
      rw [if_neg (by simp), readPlaceholder_single single guarded named,
        readPlaceholder_run scope named start single]
      exact .refl ((readRun_words slot accepts _ slot.runKind).weaken fun _ _ => trivial)
    | none =>
      rw [readPlaceholder_several single, readPlaceholder_several single]
      by_cases one : slot.quantifier = .one
      · rw [if_neg (by simp [one]), if_pos one, if_pos one]
        exact (readUnit_agree agree single inside).weaken fun _ _ => trivial
      · rw [if_pos ⟨rfl, one⟩, if_neg one, Guarded.readRepetition, readRepetition]
        have enough := Nat.lt_succ_self start.rest.length
        exact (readRepeated_agree agree single enough enough 0 inside []).bind fun _ _ => .pure trivial

theorem readItems_agree (agree : NamedAgree rules text kept scope guarded named)
    (items : List Item) {chains : List (Chain ε κ)} (inside : ∀ chain ∈ chains, chain.stop.In text) :
    Agree kept (Guarded.readItems alarm scope guarded items chains)
      (readItems scope named items chains) fun _ => True := by
  induction items generalizing chains with
  | nil => exact .pure trivial
  | cons item rest ih =>
    rw [Guarded.readItems, readItems]
    refine (Agree.mapM (fun chain found => found.1 = chain ∧ ∀ reading ∈ found.2.whole,
        DerivesItem rules scope.config item chain.stop reading.stop reading.node)
      fun chain member => ?_).bind fun found related => ?_
    · refine (readItem_agree agree item (inside chain member)).bind fun readings derived => ?_
      exact .pure ⟨rfl, derived⟩
    · refine (ih fun chain member => ?_).bind fun _ _ => .pure trivial
      obtain ⟨before, earlier, after, ⟨-, derived⟩, reading, read, rfl⟩ :=
        exists_before related (fun _ _ holds => holds.1) member
      obtain ⟨_, passes⟩ := (derived reading read).passes
      exact (inside _ earlier).passes passes

theorem readAlternatives_agree (agree : NamedAgree rules text kept scope guarded named)
    (alternatives : List (Alternative ε κ)) (inside : start.In text) :
    Agree kept (Guarded.readAlternatives alarm scope guarded alternatives start)
      (readAlternatives scope named alternatives start) fun readings =>
        ∀ reading ∈ readings.whole, DerivesOneOf rules scope.config alternatives start reading := by
  refine Agree.ensuring ?_
    (readAlternatives_derives agree.sound alternatives inside)
  refine (Agree.mapM (fun _ _ => True) fun alternative _ => ?_).bind fun _ _ => .pure trivial
  exact (readItems_agree agree _ (by simpa using inside)).bind fun _ _ => .pure trivial

end SentenceGrammar.Matching
