import SentenceGrammar.Proofs.FurthestAttempts

/-!
# Attempts that the end of a beginning cuts off

If the end of the beginning of a text cuts an attempt off, then the attempts in the whole text get at
least there: the same attempt gets there or further, and what comes behind it goes on from there. In
the same way they get behind a literal that the beginning ends in, if the text goes on with its rest.
-/
namespace SentenceGrammar.Matching

open Enumerate
open Cursor (continued)

variable {ε κ : Type} {front more : List Char} {start : Cursor} {slot : Placeholder}

/-! ### Terminals -/

/-- An attempt is noted at an offset or behind it, or a reading stops there. -/
def Reaches (limit : Nat) (tries : Attempt ε κ → Prop) (stops : List Cursor) : Prop :=
  GetsTo limit limit tries stops

theorem literal_beyond (more : List Char) (inside : start.In front) {text : String}
    (ended : (literalAttempt (ε := ε) (κ := κ) text start).ended = true) :
    Reaches (ε := ε) (κ := κ) (Text.byteSize front)
      (fun attempt => attempt = literalAttempt text (start.continued more))
      ((start.continued more).behind (· == text.toList)) := by
  have last : (start.finish.continued more).offset = Text.byteSize front := inside.finish_offset
  have scanned := scanLiteral_continued text.toList start more
  cases short : scanLiteral text.toList start with
  | whole stop => simp [literalAttempt, short] at ended
  | differs place missing => simp [literalAttempt, short] at ended
  | ended missing =>
    rw [short] at scanned
    dsimp only at scanned
    have stops := scanLiteral_stops text.toList (start.continued more)
    have stops' := scanLiteral_stops missing (start.finish.continued more)
    -- In the whole text the scan goes on with what is missing at the end of the beginning.
    cases long : scanLiteral text.toList (start.continued more) with
    | whole stop =>
      rw [long] at stops
      rw [← scanned, long] at stops'
      have listed : stop ∈ (LiteralScan.whole stop).stops := List.mem_singleton_self stop
      obtain ⟨_, passes, -⟩ := Cursor.mem_behind.mp (stops' ▸ listed)
      exact .inr ⟨stop, stops ▸ listed, last ▸ passes.offset_le⟩
    | ended missing' =>
      refine .inl ⟨_, rfl, (start.continued more).finish, by simp [literalAttempt, long], ?_⟩
      have size := Text.byteSize_append start.rest more
      simp only [Cursor.continued, Cursor.finish, Cursor.past] at last ⊢
      omega
    | differs place missing' =>
      obtain ⟨-, _, passes, -⟩ := scanLiteral_differs (scanned ▸ long)
      exact .inl ⟨_, rfl, place, by simp [literalAttempt, long], last ▸ passes.offset_le⟩

/-- A run gets as far as its scan, where it is noted or ends. -/
theorem run_reaches (satisfiable : slot.quantifier.Satisfiable) {accepts : Char → Bool}
    {limit : Nat} (far : limit ≤
      (scanRun slot.quantifier accepts [] 0 start.offset start.rest).1.reached.offset) :
    Reaches (ε := ε) (κ := κ) limit (fun attempt => attempt = runAttempt slot accepts start)
      (start.behind fun word => word.all accepts && slot.quantifier.admits word.length) := by
  have stops := scanRun_stops slot.quantifier accepts start
  cases scanned : scanRun slot.quantifier accepts [] 0 start.offset start.rest with
  | mk scan extendable =>
    rw [scanned] at stops far
    cases extendable with
    | true => exact .inl ⟨_, rfl, scan.reached, by rw [runAttempt, scanned]; rfl, far⟩
    | false => exact .inr ⟨scan.reached, stops ▸ (scanRun_full satisfiable scanned).1, far⟩

theorem run_beyond (more : List Char) (inside : start.In front)
    (satisfiable : slot.quantifier.Satisfiable) {accepts : Char → Bool}
    (ended : (runAttempt (ε := ε) (κ := κ) slot accepts start).ended = true) :
    Reaches (ε := ε) (κ := κ) (Text.byteSize front)
      (fun attempt => attempt = runAttempt slot accepts (start.continued more))
      ((start.continued more).behind fun word =>
        word.all accepts && slot.quantifier.admits word.length) := by
  simp only [runAttempt, Bool.and_eq_true, List.isEmpty_iff] at ended
  exact run_reaches satisfiable (inside.finish_offset ▸ scanRun_beyond ended.2)

theorem number_beyond (more : List Char) (inside : start.In front) {type : Builtin}
    (numeric : type.accepts? = none)
    (ended : (numberAttempt (ε := ε) (κ := κ) slot type start).ended = true)
    (settled : type = .float → ¬Numeral.EndsInMark front) :
    Reaches (ε := ε) (κ := κ) (Text.byteSize front)
      (fun attempt => attempt = numberAttempt slot type (start.continued more))
      ((start.continued more).behind (Numeral.accepts type)) := by
  have stops := scanNumber_stops numeric (start.continued more)
  simp only [numberAttempt, List.isEmpty_iff] at ended
  have far : Text.byteSize front ≤
      (scanNumber (type = .float) (start.continued more)).reached.offset :=
    inside.finish_offset ▸ scanNumber_beyond ended
  rcases scanNumber_settled (type = .float) (start.continued more) with
    (none | stopped) | ⟨float, stop, member, mark, marked, passes⟩
  · exact .inl ⟨_, rfl, _, by simp [numberAttempt, none], far⟩
  · exact .inr ⟨_, stops ▸ stopped, far⟩
  · obtain rfl := of_decide_eq_true float
    by_cases before : stop.offset < Text.byteSize front
    · exact absurd (endsInMark_of_passes inside (stops ▸ member) marked passes before far)
        (settled rfl)
    · exact .inr ⟨stop, stops ▸ member, Nat.not_lt.mp before⟩

variable (front more) in
/-- An attempt in the beginning is an attempt at a terminal that gets to an offset in the whole text.
Where this depends on a condition for numbers that may have an exponent, the condition is given. -/
structure Attempt.Leads (limit : Nat) (quiet : Prop) (attempt : Attempt ε κ) : Prop where
  literal : ∀ text (start : Cursor), start.In front → attempt = literalAttempt text start →
    Reaches (ε := ε) (κ := κ) limit (fun later => later = literalAttempt text (start.continued more))
      ((start.continued more).behind (· == text.toList))
  run : ∀ slot accepts (start : Cursor), start.In front → slot.target.single? = some accepts →
    slot.quantifier.Satisfiable → attempt = runAttempt slot accepts start →
      Reaches (ε := ε) (κ := κ) limit
        (fun later => later = runAttempt slot accepts (start.continued more))
        ((start.continued more).behind fun word =>
          word.all accepts && slot.quantifier.admits word.length)
  number : ∀ slot (type : Builtin) (start : Cursor), start.In front →
    slot.target = .builtin type → type.accepts? = none → (type = .float → quiet) →
      attempt = numberAttempt slot type start →
      Reaches (ε := ε) (κ := κ) limit
        (fun later => later = numberAttempt slot type (start.continued more))
        ((start.continued more).behind (Numeral.accepts type))

/-- If the end of the beginning cuts it off, it gets there. -/
theorem Attempt.leads_of_ended (more : List Char) {attempt : Attempt ε κ}
    (ended : attempt.ended = true) :
    attempt.Leads front more (Text.byteSize front) (¬Numeral.EndsInMark front) where
  literal _ _ inside same := literal_beyond more inside (same ▸ ended)
  run _ _ _ inside _ satisfiable same := run_beyond more inside satisfiable (same ▸ ended)
  number _ _ _ inside _ numeric quiet same := number_beyond more inside numeric (same ▸ ended) quiet

/-! ### Items and types -/

section

variable {rules : String → List (Alternative ε κ)} {config : Config}
  {long short : String → Cursor → List (TypeReading ε κ)}

/-- In front of the first unit there is nothing. -/
theorem Opening.eq_of_first {place : Cursor} {nodes : List (Node ε κ)}
    (opening : Opening config 0 start place nodes) : place = start := by
  cases opening with
  | first => rfl
  | adjacent => rfl
  | separated further _ _ => exact absurd rfl further

variable (rules config) in
/-- Nothing is read in a type. -/
def Stays (name : String) : Prop :=
  ∀ chosen ∈ rules name, ∀ {start stop : Cursor} {nodes : List (Node ε κ)},
    DerivesItems rules config chosen.pattern.items start stop nodes → stop = start

theorem Stays.unit {name : String} (stays : Stays rules config name)
    (target : slot.target = .named name) {stop : Cursor} {node : Node ε κ}
    (derived : DerivesUnit rules config slot start stop node) : stop = start := by
  cases derived with
  | number other _ _ => cases target.symm.trans other
  | type other member items _ =>
    obtain rfl := Target.named.inj (target.symm.trans other)
    exact stays _ member items

theorem Stays.item {name : String} (stays : Stays rules config name) {item : Item}
    (names : item.Names name) {stop : Cursor} {node : Node ε κ}
    (derived : DerivesItem rules config item start stop node) : stop = start := by
  cases derived with
  | literal _ => exact names.elim
  | run target _ _ _ =>
    rw [show _ = Target.named name from names] at target
    cases target
  | single _ _ unit => exact stays.unit names unit
  | repetition _ _ _ units _ =>
    cases units with
    | done => rfl
    | more separator unit moved rest =>
      have still := (stays.unit names unit).trans separator.eq_of_first
      exact absurd (congrArg Cursor.offset still) moved

theorem items_stay : ∀ {list : List Item} {start stop : Cursor} {nodes : List (Node ε κ)},
    (∀ item ∈ list, ∃ type, item.Names type ∧ Stays rules config type) →
      DerivesItems rules config list start stop nodes → stop = start
  | _, _, _, _, _, .nil _ => rfl
  | _, _, _, _, all, .cons first others => by
    obtain ⟨⟨type, names, stays⟩, rest⟩ := List.forall_mem_cons.mp all
    exact (items_stay rest others).trans (stays.item names first)

theorem stays_of_hollow {name : String} (hollow : HollowType rules name) :
    Stays rules config name := by
  induction hollow with
  | intro named _ ih =>
    intro chosen member start stop nodes derived
    refine items_stay (fun item listed => ?_) derived
    obtain ⟨type, names⟩ := named chosen member item listed
    exact ⟨type, names, ih chosen member item listed type names⟩

/-- If something is read in a unit, then it is not hollow. -/
theorem DerivesUnit.solid {stop : Cursor} {node : Node ε κ}
    (derived : DerivesUnit rules config slot start stop node) (moved : stop.offset ≠ start.offset) :
    ¬(Item.placeholder slot).Hollow rules := by
  rintro ⟨type, names, hollow⟩
  exact moved (congrArg Cursor.offset ((stays_of_hollow hollow).unit names derived))

/-- What is attempted in the beginning of a text gets on in the whole text: there the alternatives of
a type are read, their items may be filled, and every type that they ask for goes on. -/
structure Traceable (rules : String → List (Alternative ε κ)) (config : Config)
    (front more : List Char) (quiet : Prop) (long short : String → Cursor → List (TypeReading ε κ)) :
    Prop where
  fronts : Fronts rules config front more long short
  reads : ∀ name (place : Cursor), place.In front → ∀ chosen ∈ rules name, ∀ stop,
    stop ∈ (items config (within (Context.continued more (some (name, place))) long)
      chosen.pattern.items (place.continued more)).map Chain.stop →
        stop ∈ (long name (place.continued more)).map TypeReading.stop
  fillable : ∀ name, ∀ chosen ∈ rules name, ∀ item ∈ chosen.pattern.items, item.Fillable rules
  goes : ∀ name (place : Cursor), place.In front → ∀ chosen ∈ rules name, ∀ pair,
    ItemsAsk rules config chosen.pattern.items (place.continued more) pair →
      TypeGoes rules config long (Context.continued more (some (name, place))) pair
  settled : ∀ name, ∀ chosen ∈ rules name, ∀ slot, Item.placeholder slot ∈ chosen.pattern.items →
    slot.target = .builtin .float → quiet

-- What is not within itself is not within itself in the whole text.
private theorem other_continued {context : Context} {name : String}
    (other : context ≠ some (name, start)) (more : List Char) :
    context.continued more ≠ some (name, start.continued more) := by
  intro same
  obtain ⟨pair, known, both⟩ := Option.map_eq_some_iff.mp same
  obtain ⟨rfl, place⟩ := Prod.mk.inj both
  obtain rfl := Cursor.continued_injective more place
  exact other known

variable {limit : Nat} {quiet : Prop} {attempt : Attempt ε κ}

mutual

theorem TriesUnit.beyond (traceable : Traceable rules config front more quiet long short)
    (far : Text.byteSize front ≤ limit) {context : Context} {slot : Placeholder} {start : Cursor}
    {attempt : Attempt ε κ} (inside : start.In front)
    (leads : attempt.Leads front more limit quiet) (several : slot.target.single? = none)
    (settled : slot.target = .builtin .float → quiet) :
    TriesUnit rules config short context slot start attempt →
      Reaches limit
        (TriesUnit rules config long (context.continued more) slot (start.continued more))
        ((unit (within (context.continued more) long) slot (start.continued more)).map Reading.stop)
  | .number start target => by
    have numeric := several
    simp only [target, Target.single?] at numeric
    exact unit_of_number target
      (leads.number slot _ start inside target numeric (fun float => settled (float ▸ target)) rfl)
  | .type target other inner =>
    unit_of_type target (other_continued other more) (inner.beyond traceable far inside leads)

theorem TriesUnits.beyond (traceable : Traceable rules config front more quiet long short)
    (far : Text.byteSize front ≤ limit) {context : Context} {slot : Placeholder} {count : Nat}
    {start : Cursor} {attempt : Attempt ε κ} (inside : start.In front)
    (leads : attempt.Leads front more limit quiet) (several : slot.target.single? = none)
    (settled : slot.target = .builtin .float → quiet) (satisfiable : slot.quantifier.Satisfiable)
    (types : ∀ place, UnitAt rules config slot count (start.continued more) place →
      ∀ name, slot.target = .named name →
        TypeGoes rules config long (context.continued more) (name, place))
    (solid : 0 < slot.quantifier.least ∨ count ≠ 0 → ¬(Item.placeholder slot).Hollow rules) :
    TriesUnits rules config short context slot count start attempt →
      Reaches limit
        (TriesUnits rules config long (context.continued more) slot count (start.continued more))
        ((units config (within (context.continued more) long) slot count (start.continued more)).map
          Chain.stop)
  | .separator start further later separator => by
    have ready place (asked : UnitAt rules config slot _ (start.continued more) place) :=
      unit_moves several (types place asked) (solid (.inr later))
    refine ((leads.literal _ start inside rfl).of_attempt
      (.separator _ further later separator)).behind (Nat.le_refl _) (fun _ => id)
        fun stop member beyond => ?_
    -- Behind the separator a unit begins, which moves on.
    obtain ⟨opening, opened, rfl⟩ : ∃ opening ∈ openings (ε := ε) (κ := κ) config count
        (start.continued more), opening.stop = stop := by
      simpa [openings, separator, later, words] using member
    have unit := (ready opening.stop (.here further (mem_openings.mp opened))).weaken beyond
      (Nat.succ_le_succ beyond)
    exact (units_of_unit traceable.fronts.whole satisfiable further (fun _ => ready) opened unit
      (Nat.lt_succ_of_le (inside.offset_le.trans far)) (Nat.le_succ _)).weaken (Nat.le_refl _)
        (Nat.le_succ _)
  | .here further opened first => by
    have ready (least : 0 < slot.quantifier.least) place
        (asked : UnitAt rules config slot _ (start.continued more) place) :=
      unit_moves several (types place asked) (solid (.inl least))
    obtain ⟨opening', opened', same⟩ := List.mem_map.mp
      ((openings_restricts count inside).mem (List.mem_map_of_mem opened))
    obtain ⟨_, passes⟩ := (mem_openings.mp opened).passes
    have beyond := first.beyond traceable far (inside.passes passes) leads several settled
    rw [← same] at beyond
    by_cases before : start.offset < limit
    · exact units_of_unit traceable.fronts.whole satisfiable further ready opened' beyond before
        (Nat.le_refl _)
    -- At the limit it is enough to go on.
    · have last := Nat.not_lt.mp before
      exact (units_go traceable.fronts.whole satisfiable (.inl further) ready).weaken last last
  | .later further opened read moved others => by
    have within := traceable.fronts.within context
    obtain ⟨opening', opened', same⟩ := List.mem_map.mp
      ((openings_restricts count inside).mem (List.mem_map_of_mem opened))
    obtain ⟨_, before⟩ := (mem_openings.mp opened).passes
    have inside' := inside.passes before
    obtain ⟨found', read', same'⟩ := List.mem_map.mp
      ((unit_restricts within slot inside').mem (List.mem_map_of_mem read))
    obtain ⟨_, passes⟩ := (derives_of_mem_unit within.beginning read).passes
    rw [← same] at read'
    have shorter : found'.stop.rest.length < (start.continued more).rest.length := by
      simpa [same'] using moved
    have separator := mem_openings.mp opened'
    have derived := derives_of_mem_unit within.whole read'
    have further' := (moved_iff separator derived).mp shorter
    -- The unit that was read is not hollow.
    have solid' : ¬(Item.placeholder slot).Hollow rules := by
      by_cases first : count = 0
      · subst first
        exact derived.solid (separator.eq_of_first ▸ further')
      · exact solid (.inr first)
    rw [same'] at derived further'
    have rest := others.beyond traceable far (inside'.passes passes) leads several settled satisfiable
      (fun place asked => types place (.later further separator derived further' asked))
      fun _ => solid'
    rw [← same'] at rest
    exact rest.mono (fun _ tried => .later further opened' read' shorter tried)
      fun _ => mem_stops_units further opened' read' shorter

theorem TriesItem.beyond (traceable : Traceable rules config front more quiet long short)
    (far : Text.byteSize front ≤ limit) {context : Context} {item : Item} {rest : List Item}
    {start : Cursor} {attempt : Attempt ε κ} (inside : start.In front)
    (leads : attempt.Leads front more limit quiet) (fillable : item.Fillable rules)
    (settled : ∀ slot, item = .placeholder slot → slot.target = .builtin .float → quiet)
    (types : ∀ pair, ItemsAsk rules config (item :: rest) (start.continued more) pair →
      TypeGoes rules config long (context.continued more) pair) :
    TriesItem rules config short context item start attempt →
      Reaches limit
        (TriesItem rules config long (context.continued more) item (start.continued more))
        ((Enumerate.item config (within (context.continued more) long) item
          (start.continued more)).map Reading.stop)
  | .literal start => by
    rw [Enumerate.item, stops_words]
    exact (leads.literal _ start inside rfl).of_attempt (.literal _)
  | .run start target => by
    rw [Enumerate.item, target]
    dsimp only
    rw [stops_words]
    exact (leads.run _ _ start inside target fillable.substantial rfl).of_attempt (.run _ target)
  | .single target one unit => by
    simp only [Enumerate.item, target, if_pos one]
    exact (unit.beyond traceable far inside leads target (settled _ rfl)).mono
      (fun _ tried => .single target one tried) fun _ => id
  | .repetition target several units => by
    simp only [Enumerate.item, target, if_neg several, List.map_map, Function.comp_def]
    refine (units.beyond traceable far inside leads target (settled _ rfl) fillable.substantial
      (fun place asked name named => types (name, place) (.here named asked)) fun required => ?_).mono
        (fun _ tried => .repetition target several tried) fun _ => id
    exact fillable.solid ⟨several, required.resolve_right (absurd rfl)⟩

theorem TriesItems.beyond (traceable : Traceable rules config front more quiet long short)
    (far : Text.byteSize front ≤ limit) {context : Context} {list : List Item} {start : Cursor}
    {attempt : Attempt ε κ} (inside : start.In front) (leads : attempt.Leads front more limit quiet)
    (fillable : ∀ item ∈ list, item.Fillable rules)
    (settled : ∀ slot, Item.placeholder slot ∈ list → slot.target = .builtin .float → quiet)
    (types : ∀ pair, ItemsAsk rules config list (start.continued more) pair →
      TypeGoes rules config long (context.continued more) pair) :
    TriesItems rules config short context list start attempt →
      Reaches limit
        (TriesItems rules config long (context.continued more) list (start.continued more))
        ((items config (within (context.continued more) long) list (start.continued more)).map
          Chain.stop)
  | .here first => by
    have item := first.beyond traceable far inside leads (fillable _ List.mem_cons_self)
      (fun slot same => settled slot (same ▸ List.mem_cons_self)) types
    refine items_of_item item (Nat.le_refl _) fun found read beyond => ?_
    have derived := derives_of_mem_item (within_sound traceable.fronts.whole _) read
    exact (items_go traceable.fronts.whole
      (fun item later => fillable item (List.mem_cons_of_mem _ later))
      fun pair asked => types pair (.later derived asked)).weaken beyond beyond
  | .later read others => by
    have within := traceable.fronts.within context
    obtain ⟨found', read', same⟩ := List.mem_map.mp
      ((item_restricts within _ inside).mem (List.mem_map_of_mem read))
    obtain ⟨_, passes⟩ := (derives_of_mem_item within.beginning read).passes
    have derived := derives_of_mem_item within.whole read'
    rw [same] at derived
    have rest := others.beyond traceable far (inside.passes passes) leads
      (fun item later => fillable item (List.mem_cons_of_mem _ later))
      (fun slot later => settled slot (List.mem_cons_of_mem _ later))
      fun pair asked => types pair (.later derived asked)
    rw [← same] at rest
    exact rest.mono (fun _ tried => .later read' tried)
      fun _ => mem_stops_items read'

theorem TriesType.beyond (traceable : Traceable rules config front more quiet long short)
    (far : Text.byteSize front ≤ limit) {name : String} {start : Cursor} {attempt : Attempt ε κ}
    (inside : start.In front) (leads : attempt.Leads front more limit quiet) :
    TriesType rules config short name start attempt →
      Reaches limit (TriesType rules config long name (start.continued more))
        ((long name (start.continued more)).map TypeReading.stop)
  | .alternative member items =>
    (items.beyond traceable far inside leads (traceable.fillable name _ member)
      (traceable.settled name _ member) (traceable.goes name start inside _ member)).mono
        (fun _ tried => .alternative member tried)
        (traceable.reads name start inside _ member)

end

end

/-! ### Grammars -/

variable {registry : Registry ε κ} {config : Config}

/-- Some placeholder takes numbers that may have an exponent. -/
def ReadsFloats (registry : Registry ε κ) : Prop :=
  ∃ chosen ∈ registry.allAlternatives, ∃ slot,
    Item.placeholder slot ∈ chosen.pattern.items ∧ slot.target = .builtin .float

theorem canonical_traceable (sensible : Sensible registry)
    (acyclic : NoLeftRecursion registry.alternatives config (front ++ more)) {quiet : Prop}
    (settled : ReadsFloats registry → quiet) :
    Traceable registry.alternatives config front more quiet
      (canonical registry config (front ++ more)) (canonical registry config front) where
  fronts := canonical_fronts (acyclic.noMutual registry.alternatives config)
  reads name place inside chosen member stop listed := by
    rw [canonical_unfold (acyclic.noMutual registry.alternatives config) (inside.continued more),
      stops_oneOf]
    exact List.mem_flatMap.mpr ⟨chosen, member, listed⟩
  fillable name chosen member := sensible.fillable (alternatives_subset registry name member)
  goes name place inside chosen member pair asked := by
    have inside' := inside.continued more
    refine asked_goes sensible acyclic inside' (alternatives_subset registry name member) asked
      fun same => ?_
    obtain rfl : (name, place.continued more) = pair := Option.some.inj same
    have asks : Asks registry.alternatives config (name, place.continued more)
        (name, place.continued more) := ⟨chosen, member, asked⟩
    exact acyclic _ inside' (.single asks)
  settled name chosen member slot listed float :=
    settled ⟨chosen, alternatives_subset registry name member, slot, listed, float⟩

end SentenceGrammar.Matching
