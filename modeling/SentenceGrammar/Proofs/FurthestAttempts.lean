import SentenceGrammar.Proofs.CutLeaves
import SentenceGrammar.Proofs.EndedScans

/-!
# How far attempts get

What asks for something is not passed over in silence: from every place at which it is to be read,
either an attempt notes that something is missing there or further on, or something is read that
moves on. What is hollow does not move on, but it does not stand in the way either, unless it has to
be repeated. So if an attempt in the beginning of a text is cut off at its end, then the attempts in
the whole text get at least as far.
-/
namespace SentenceGrammar.Matching

open Enumerate

variable {ε κ : Type}

/-- An attempt is noted at or behind the first offset, or a reading stops at or behind the second. -/
def GetsTo (note stop : Nat) (tries : Attempt ε κ → Prop) (stops : List Cursor) : Prop :=
  (∃ attempt, tries attempt ∧ ∃ place, attempt.noted = some place ∧ note ≤ place.offset) ∨
    ∃ place ∈ stops, stop ≤ place.offset

namespace GetsTo

variable {note stop note' stop' : Nat} {tries tries' : Attempt ε κ → Prop}
  {stops stops' : List Cursor}

/-- What comes behind the readings that move on gets further. -/
theorem behind (gets : GetsTo note stop tries stops) (further : note' ≤ note)
    (more : ∀ attempt, tries attempt → tries' attempt)
    (next : ∀ place ∈ stops, stop ≤ place.offset → GetsTo note' stop' tries' stops') :
    GetsTo note' stop' tries' stops' := by
  rcases gets with ⟨attempt, tried, place, noted, far⟩ | ⟨place, member, far⟩
  · exact .inl ⟨attempt, more attempt tried, place, noted, further.trans far⟩
  · exact next place member far

/-- What gets to an offset gets to every earlier one. -/
theorem weaken (gets : GetsTo note stop tries stops) (further : note' ≤ note)
    (further' : stop' ≤ stop) : GetsTo note' stop' tries stops :=
  gets.behind further (fun _ => id) fun place member far => .inr ⟨place, member, further'.trans far⟩

theorem mono (gets : GetsTo note stop tries stops) (more : ∀ attempt, tries attempt → tries' attempt)
    (more' : ∀ place ∈ stops, place ∈ stops') : GetsTo note stop tries' stops' :=
  gets.behind (Nat.le_refl _) more fun place member far => .inr ⟨place, more' place member, far⟩

/-- One attempt of several gets as far as it gets on its own. -/
theorem of_attempt {attempt : Attempt ε κ} (gets : GetsTo note stop (fun tried => tried = attempt) stops)
    (tried : tries attempt) : GetsTo note stop tries stops :=
  gets.mono (fun _ same => same ▸ tried) fun _ => id

end GetsTo

/-- From a place on, something is noted, or something is read that moves on. -/
def MovesFrom (start : Cursor) (tries : Attempt ε κ → Prop) (stops : List Cursor) : Prop :=
  GetsTo start.offset (start.offset + 1) tries stops

/-! ### Terminals -/

theorem literal_moves {text : String} (some : text ≠ "") (start : Cursor) :
    MovesFrom (ε := ε) (κ := κ) start (fun attempt => attempt = literalAttempt text start)
      (start.behind (· == text.toList)) := by
  have stops := scanLiteral_stops text.toList start
  cases scanned : scanLiteral text.toList start with
  | whole stop =>
    rw [scanned] at stops
    have member : stop ∈ start.behind (· == text.toList) := by simp [← stops, LiteralScan.stops]
    obtain ⟨word, passes, accepted⟩ := Cursor.mem_behind.mp member
    obtain rfl := beq_iff_eq.mp accepted
    exact .inr ⟨stop, member, passes.offset_lt (mt String.toList_eq_nil_iff.mp some)⟩
  | ended missing =>
    refine .inl ⟨_, rfl, start.finish, by simp [literalAttempt, scanned], ?_⟩
    exact (Cursor.passes_finish start).offset_le
  | differs place missing =>
    obtain ⟨-, _, passes, -⟩ := scanLiteral_differs scanned
    exact .inl ⟨_, rfl, place, by simp [literalAttempt, scanned], passes.offset_le⟩

theorem run_moves {slot : Placeholder} (satisfiable : slot.quantifier.Satisfiable)
    (accepts : Char → Bool) (start : Cursor) :
    MovesFrom (ε := ε) (κ := κ) start (fun attempt => attempt = runAttempt slot accepts start)
      (start.behind fun word => word.all accepts && slot.quantifier.admits word.length) := by
  have stops := scanRun_stops slot.quantifier accepts start
  obtain ⟨_, passes⟩ := scanRun_reaches slot.quantifier accepts [] 0 start.offset start.rest
  cases scanned : scanRun slot.quantifier accepts [] 0 start.offset start.rest with
  | mk scan extendable =>
    rw [scanned] at stops passes
    cases extendable with
    | true => exact .inl ⟨_, rfl, scan.reached, by simp [runAttempt, scanned], passes.offset_le⟩
    | false =>
      obtain ⟨last, moved⟩ := scanRun_full satisfiable scanned
      exact .inr ⟨scan.reached, stops ▸ last, moved satisfiable.allowsMore_zero⟩

theorem number_moves {slot : Placeholder} {type : Builtin} (numeric : type.accepts? = none)
    (start : Cursor) :
    MovesFrom (ε := ε) (κ := κ) start (fun attempt => attempt = numberAttempt slot type start)
      (start.behind (Numeral.accepts type)) := by
  have stops := scanNumber_stops numeric start
  cases known : start.behind (Numeral.accepts type) with
  | nil =>
    rw [known] at stops
    obtain ⟨_, passes⟩ := scanNumber_reaches (decide (type = .float)) start
    exact .inl ⟨_, rfl, _, by simp [numberAttempt, stops], passes.offset_le⟩
  | cons stop others =>
    have member : stop ∈ start.behind (Numeral.accepts type) := by simp [known]
    obtain ⟨word, passes, accepted⟩ := Cursor.mem_behind.mp member
    have some : word ≠ [] := by
      rintro rfl
      cases type <;> cases accepted
    exact .inr ⟨stop, List.mem_cons_self, passes.offset_lt some⟩

/-! ### Items -/

section

variable {rules : String → List (Alternative ε κ)} {config : Config}
  {ask : String → Cursor → List (TypeReading ε κ)} {context : Context} {start place : Cursor}
  {slot : Placeholder}

variable (rules config ask context) in
/-- A unit is not passed over in silence. -/
def UnitMoves (slot : Placeholder) (place : Cursor) : Prop :=
  MovesFrom place (TriesUnit rules config ask context slot place)
    ((unit (within context ask) slot place).map Reading.stop)

variable (rules config ask context) in
/-- The type may be asked for within the context, and it goes on from its place. Unless it is hollow,
it is not passed over in silence. -/
structure TypeGoes (pair : String × Cursor) : Prop where
  other : context ≠ some pair
  goes : GetsTo pair.2.offset pair.2.offset (TriesType rules config ask pair.1 pair.2)
    ((ask pair.1 pair.2).map TypeReading.stop)
  moves : ¬HollowType rules pair.1 → MovesFrom pair.2 (TriesType rules config ask pair.1 pair.2)
    ((ask pair.1 pair.2).map TypeReading.stop)

/-- A unit gets as far as its type. -/
theorem unit_of_type {name : String} {note stop : Nat} (target : slot.target = .named name)
    (other : context ≠ some (name, place)) (type : GetsTo note stop
      (TriesType rules config ask name place) ((ask name place).map TypeReading.stop)) :
    GetsTo note stop (TriesUnit rules config ask context slot place)
      ((unit (within context ask) slot place).map Reading.stop) := by
  refine type.mono (fun _ tried => .type target other tried) fun stop member => ?_
  obtain ⟨reading, read, rfl⟩ := List.mem_map.mp member
  simp only [unit, target, List.map_map, List.mem_map]
  exact ⟨reading, mem_within.mpr ⟨other, read⟩, rfl⟩

/-- A unit gets as far as its number. -/
theorem unit_of_number {type : Builtin} {note stop : Nat} (target : slot.target = .builtin type)
    (number : GetsTo (ε := ε) (κ := κ) note stop
      (fun attempt => attempt = numberAttempt slot type place)
      (place.behind (Numeral.accepts type))) :
    GetsTo note stop (TriesUnit rules config ask context slot place)
      ((unit (within context ask) slot place).map Reading.stop) := by
  rw [unit, target]
  dsimp only
  rw [stops_words]
  exact number.of_attempt (.number place target)

theorem unit_moves (several : slot.target.single? = none)
    (types : ∀ name, slot.target = .named name → TypeGoes rules config ask context (name, place))
    (solid : ¬(Item.placeholder slot).Hollow rules) :
    UnitMoves rules config ask context slot place := by
  cases target : slot.target with
  | charClass set => simp [target, Target.single?] at several
  | builtin type =>
    have numeric : type.accepts? = none := by simpa [target, Target.single?] using several
    exact unit_of_number target (number_moves numeric place)
  | named type =>
    have known := types type target
    exact unit_of_type target known.other (known.moves fun hollow => solid ⟨type, target, hollow⟩)

theorem unit_goes (several : slot.target.single? = none)
    (types : ∀ name, slot.target = .named name → TypeGoes rules config ask context (name, place)) :
    GetsTo place.offset place.offset (TriesUnit rules config ask context slot place)
      ((unit (within context ask) slot place).map Reading.stop) := by
  by_cases hollow : (Item.placeholder slot).Hollow rules
  · obtain ⟨type, target, -⟩ := hollow
    have known := types type target
    exact unit_of_type target known.other known.goes
  · exact (unit_moves several types hollow).weaken (Nat.le_refl _) (Nat.le_succ _)

-- Some unit may begin, unless its separator is noted to be missing.
private theorem opening_gets {count : Nat} (more : slot.quantifier.allowsMore count = true)
    (start : Cursor) : GetsTo start.offset start.offset
      (TriesUnits rules config ask context slot count start)
      ((openings (ε := ε) (κ := κ) config count start).map Chain.stop) := by
  rw [openings]
  split
  next text separator =>
    split
    next => exact .inr ⟨start, by simp, Nat.le_refl _⟩
    next further =>
      have some : text ≠ "" := by
        rintro rfl
        cases given : config.repetition <;> simp [Delimiting.separator?, given] at separator
      simp only [List.map_map, Function.comp_def]
      rw [stops_words]
      exact ((literal_moves some start).of_attempt (.separator start more further separator)).weaken
        (Nat.le_refl _) (Nat.le_succ _)
  next => exact .inr ⟨start, by simp, Nat.le_refl _⟩

/-- Another unit leads to the stops behind it. -/
theorem mem_stops_units {count : Nat} {opening : Chain ε κ} {found : Reading ε κ}
    (more : slot.quantifier.allowsMore count = true) (opened : opening ∈ openings config count start)
    (read : found ∈ unit ask slot opening.stop) (moved : found.stop.rest.length < start.rest.length)
    {stop : Cursor} (member : stop ∈ (units config ask slot (count + 1) found.stop).map Chain.stop) :
    stop ∈ (units config ask slot count start).map Chain.stop := by
  obtain ⟨tail, later, rfl⟩ := List.mem_map.mp member
  exact List.mem_map.mpr
    ⟨_, mem_units.mpr (.inl ⟨more, _, opened, _, read, moved, _, later, rfl⟩), rfl⟩

-- If no unit has to follow, then either another one is allowed or enough were read.
private theorem admits_of_allowsMore {quantifier : Quantifier} {count : Nat}
    (more : quantifier.allowsMore count = true) (enough : ¬0 < quantifier.least) :
    quantifier.admits count = true := by
  cases known : quantifier.most with
  | none => simp [Quantifier.admits, known, Nat.eq_zero_of_not_pos enough]
  | some most =>
    have below : count < most := by simpa [Quantifier.allowsMore, known] using more
    simpa [Quantifier.admits, known, Nat.eq_zero_of_not_pos enough] using below.le

-- The last one that is allowed is one of those that suffice.
private theorem allowsMore_or_admits_succ {quantifier : Quantifier}
    (satisfiable : quantifier.Satisfiable) {count : Nat} (more : quantifier.allowsMore count = true) :
    quantifier.allowsMore (count + 1) = true ∨ quantifier.admits (count + 1) = true := by
  by_cases full : quantifier.allowsMore (count + 1) = true
  · exact .inl full
  have least := satisfiable.least_le (Bool.eq_false_iff.mpr full)
  right
  cases known : quantifier.most with
  | none => simp [Quantifier.admits, known, least]
  | some most =>
    have below : count < most := by simpa [Quantifier.allowsMore, known] using more
    simpa [Quantifier.admits, known, least] using Nat.succ_le_of_lt below

mutual

/-- If a unit gets beyond the place where its repetition is, so do the units. -/
theorem units_of_unit (sound : Sound rules config ask) (satisfiable : slot.quantifier.Satisfiable)
    {count : Nat} {start : Cursor} (more : slot.quantifier.allowsMore count = true)
    (ready : 0 < slot.quantifier.least → ∀ place, UnitAt rules config slot count start place →
      UnitMoves rules config ask context slot place)
    {opening : Chain ε κ} (opened : opening ∈ openings config count start) {note stop : Nat}
    (first : GetsTo note stop (TriesUnit rules config ask context slot opening.stop)
      ((unit (within context ask) slot opening.stop).map Reading.stop))
    (beyond : start.offset < stop) (further : note ≤ stop) :
    GetsTo note stop (TriesUnits rules config ask context slot count start)
      ((units config (within context ask) slot count start).map Chain.stop) := by
  refine first.behind (Nat.le_refl _) (fun _ tried => .here more opened tried) fun _ member far => ?_
  obtain ⟨found, read, rfl⟩ := List.mem_map.mp member
  have separator := mem_openings.mp opened
  have derived := derives_of_mem_unit (within_sound sound context) read
  have moved := Nat.ne_of_gt (Nat.lt_of_lt_of_le beyond far)
  have shorter := (moved_iff separator derived).mpr moved
  have rest := units_go sound satisfiable (allowsMore_or_admits_succ satisfiable more)
    fun least place asked => ready least place (.later more separator derived moved asked)
  exact (rest.weaken (further.trans far) far).mono
    (fun _ tried => .later more opened read shorter tried)
    fun _ => mem_stops_units more opened read shorter
termination_by (start.rest.length, 0)

/-- Units of which another one is allowed are not passed over in silence. -/
theorem units_move (sound : Sound rules config ask) (satisfiable : slot.quantifier.Satisfiable)
    {count : Nat} {start : Cursor} (more : slot.quantifier.allowsMore count = true)
    (ready : ∀ place, UnitAt rules config slot count start place →
      UnitMoves rules config ask context slot place) :
    MovesFrom start (TriesUnits rules config ask context slot count start)
      ((units config (within context ask) slot count start).map Chain.stop) := by
  refine (opening_gets more start).behind (Nat.le_refl _) (fun _ => id) fun _ member _ => ?_
  obtain ⟨opening, opened, rfl⟩ := List.mem_map.mp member
  obtain ⟨_, before⟩ := (mem_openings.mp opened).passes
  have unit := (ready opening.stop (.here more (mem_openings.mp opened))).weaken before.offset_le
    (Nat.succ_le_succ before.offset_le)
  exact units_of_unit sound satisfiable more (fun _ => ready) opened unit (Nat.lt_succ_self _)
    (Nat.le_succ _)
termination_by (start.rest.length, 1)

/-- Units go on from the place where they begin, if there may be none or another one. -/
theorem units_go (sound : Sound rules config ask) (satisfiable : slot.quantifier.Satisfiable)
    {count : Nat} {start : Cursor}
    (possible : slot.quantifier.allowsMore count = true ∨ slot.quantifier.admits count = true)
    (ready : 0 < slot.quantifier.least → ∀ place, UnitAt rules config slot count start place →
      UnitMoves rules config ask context slot place) :
    GetsTo start.offset start.offset (TriesUnits rules config ask context slot count start)
      ((units config (within context ask) slot count start).map Chain.stop) := by
  by_cases further : slot.quantifier.allowsMore count = true ∧ 0 < slot.quantifier.least
  · obtain ⟨more, least⟩ := further
    exact (units_move sound satisfiable more (ready least)).weaken (Nat.le_refl _) (Nat.le_succ _)
  · have admitted : slot.quantifier.admits count = true :=
      possible.elim (fun more => admits_of_allowsMore more (not_and.mp further more)) id
    exact .inr ⟨start, List.mem_map.mpr ⟨_, mem_units.mpr (.inr ⟨admitted, rfl⟩), rfl⟩, Nat.le_refl _⟩
termination_by (start.rest.length, 2)

end

theorem item_moves (sound : Sound rules config ask) {item : Item} (substantial : item.Substantial)
    (solid : ¬item.Hollow rules) {rest : List Item}
    (types : ∀ pair, ItemsAsk rules config (item :: rest) start pair →
      TypeGoes rules config ask context pair) :
    MovesFrom start (TriesItem rules config ask context item start)
      ((Enumerate.item config (within context ask) item start).map Reading.stop) := by
  cases item with
  | literal text span =>
    rw [Enumerate.item, stops_words]
    exact (literal_moves substantial start).of_attempt (.literal start)
  | placeholder slot =>
    cases target : slot.target.single? with
    | some accepts =>
      rw [Enumerate.item, target]
      dsimp only
      rw [stops_words]
      exact (run_moves substantial accepts start).of_attempt (.run start target)
    | none =>
      have ready place (asked : UnitAt rules config slot 0 start place) :
          UnitMoves rules config ask context slot place :=
        unit_moves target (fun name named => types (name, place) (.here named asked)) solid
      have first := Quantifier.Satisfiable.allowsMore_zero substantial
      by_cases one : slot.quantifier = .one
      · simp only [Enumerate.item, target, if_pos one]
        exact (ready start (.here first (.first start))).mono
          (fun _ tried => .single target one tried) fun _ => id
      · simp only [Enumerate.item, target, if_neg one, List.map_map, Function.comp_def]
        exact (units_move sound substantial first ready).mono
          (fun _ tried => .repetition target one tried) fun _ => id

/-- An item goes on from the place where it begins. -/
theorem item_goes (sound : Sound rules config ask) {item : Item} (fillable : item.Fillable rules)
    {rest : List Item} (types : ∀ pair, ItemsAsk rules config (item :: rest) start pair →
      TypeGoes rules config ask context pair) :
    GetsTo start.offset start.offset (TriesItem rules config ask context item start)
      ((Enumerate.item config (within context ask) item start).map Reading.stop) := by
  by_cases hollow : item.Hollow rules
  swap
  · exact (item_moves sound fillable.substantial hollow types).weaken (Nat.le_refl _) (Nat.le_succ _)
  -- What is hollow has to be there once, or not at all.
  obtain ⟨type, names, -⟩ := id hollow
  cases item with
  | literal => exact names.elim
  | placeholder slot =>
    have target : slot.target.single? = none := by
      rw [show slot.target = .named type from names]
      rfl
    have first := Quantifier.Satisfiable.allowsMore_zero fillable.substantial
    by_cases one : slot.quantifier = .one
    · simp only [Enumerate.item, target, if_pos one]
      have unit := unit_goes target fun name named =>
        types (name, start) (.here named (.here first (.first start)))
      exact unit.mono (fun _ tried => .single target one tried) fun _ => id
    · simp only [Enumerate.item, target, if_neg one, List.map_map, Function.comp_def]
      refine (units_go sound fillable.substantial (.inl first) fun least => ?_).mono
        (fun _ tried => .repetition target one tried) fun _ => id
      exact absurd hollow (fillable.solid ⟨one, least⟩)

/-- Another item leads to the stops behind it. -/
theorem mem_stops_items {first : Item} {rest : List Item} {found : Reading ε κ}
    (read : found ∈ Enumerate.item config ask first start) {stop : Cursor}
    (member : stop ∈ (items config ask rest found.stop).map Chain.stop) :
    stop ∈ (items config ask (first :: rest) start).map Chain.stop := by
  rw [stops_items]
  exact List.mem_flatMap.mpr ⟨found.stop, List.mem_map_of_mem read, member⟩

/-- Items get as far as what is behind the first one. -/
theorem items_of_item {first : Item} {rest : List Item} {note stop note' stop' : Nat}
    (item : GetsTo note stop (TriesItem rules config ask context first start)
      ((Enumerate.item config (within context ask) first start).map Reading.stop))
    (further : note' ≤ note)
    (behind : ∀ found ∈ Enumerate.item config (within context ask) first start,
      stop ≤ found.stop.offset → GetsTo note' stop'
        (TriesItems rules config ask context rest found.stop)
        ((items config (within context ask) rest found.stop).map Chain.stop)) :
    GetsTo note' stop' (TriesItems rules config ask context (first :: rest) start)
      ((items config (within context ask) (first :: rest) start).map Chain.stop) := by
  refine item.behind further (fun _ tried => .here tried) fun _ member far => ?_
  obtain ⟨found, read, rfl⟩ := List.mem_map.mp member
  exact (behind found read far).mono (fun _ tried => .later read tried) fun _ => mem_stops_items read

/-- Items go on from the place where they begin, even if there are none. -/
theorem items_go (sound : Sound rules config ask) {list : List Item}
    (fillable : ∀ item ∈ list, item.Fillable rules)
    (types : ∀ pair, ItemsAsk rules config list start pair →
      TypeGoes rules config ask context pair) :
    GetsTo start.offset start.offset (TriesItems rules config ask context list start)
      ((items config (within context ask) list start).map Chain.stop) := by
  induction list generalizing start with
  | nil => exact .inr ⟨start, List.mem_singleton_self _, Nat.le_refl _⟩
  | cons first rest ih =>
    obtain ⟨here, later⟩ := List.forall_mem_cons.mp fillable
    refine items_of_item (item_goes sound here types) (Nat.le_refl _) fun found read far => ?_
    have derived := derives_of_mem_item (within_sound sound context) read
    exact (ih later fun pair asked => types pair (.later derived asked)).weaken far far

/-- Items of a pattern are not passed over in silence, if there is something to read in one. -/
theorem items_move (sound : Sound rules config ask) {list : List Item}
    (fillable : ∀ item ∈ list, item.Fillable rules) (solid : ∃ item ∈ list, ¬item.Hollow rules)
    (types : ∀ pair, ItemsAsk rules config list start pair →
      TypeGoes rules config ask context pair) :
    MovesFrom start (TriesItems rules config ask context list start)
      ((items config (within context ask) list start).map Chain.stop) := by
  induction list generalizing start with
  | nil => simp at solid
  | cons first rest ih =>
    obtain ⟨here, later⟩ := List.forall_mem_cons.mp fillable
    have behind {found : Reading ε κ}
        (read : found ∈ Enumerate.item config (within context ask) first start) pair
        (asked : ItemsAsk rules config rest found.stop pair) :
        TypeGoes rules config ask context pair :=
      types pair (.later (derives_of_mem_item (within_sound sound context) read) asked)
    by_cases hollow : first.Hollow rules
    · have other := (List.exists_mem_cons_iff .. |>.mp solid).resolve_left (not_not.mpr hollow)
      refine items_of_item (item_goes sound here types) (Nat.le_refl _) fun found read far => ?_
      exact (ih later other (behind read)).weaken far (Nat.succ_le_succ far)
    · refine items_of_item (item_moves sound here.substantial hollow types) (Nat.le_refl _)
        fun found read far => ?_
      exact (items_go sound later (behind read)).weaken (Nat.le_of_succ_le far) far

end

/-! ### Types and sentences -/

variable {registry : Registry ε κ} {config : Config} {text : List Char}

/-- Every alternative asks for something, and every type that is asked for has one. -/
structure Complete (registry : Registry ε κ) : Prop where
  wellFormed : registry.WellFormed
  throughout : registry.AsksThroughout
  defined : registry.undefinedReferences = []

/-- Every type that is asked for is defined, and all items may be filled. -/
structure Sensible (registry : Registry ε κ) : Prop where
  wellFormed : registry.WellFormed
  solid : registry.RepeatsSolid
  defined : registry.undefinedReferences = []

theorem Sensible.fillable (sensible : Sensible registry) {chosen : Alternative ε κ}
    (registered : chosen ∈ registry.allAlternatives) :
    ∀ item ∈ chosen.pattern.items, item.Fillable registry.alternatives := fun item member =>
  ⟨sensible.wellFormed.items chosen registered item member,
    sensible.solid chosen registered item member⟩

/-- A type that is referred to has an alternative. -/
theorem alternatives_of_names (wellFormed : registry.WellFormed)
    (defined : registry.undefinedReferences = []) {chosen : Alternative ε κ}
    (registered : chosen ∈ registry.allAlternatives) {slot : Placeholder}
    (member : Item.placeholder slot ∈ chosen.pattern.items) {name : String}
    (target : slot.target = .named name) : registry.alternatives name ≠ [] := by
  have known := refers_of_mem defined registered member name target
  obtain ⟨entry, found⟩ := Option.isSome_iff_exists.mp known
  rw [Registry.alternatives, found]
  exact wellFormed.types entry (List.mem_of_find?_eq_some found)

theorem Sensible.asked (sensible : Sensible registry) {chosen : Alternative ε κ}
    (registered : chosen ∈ registry.allAlternatives) {start : Cursor} {pair : String × Cursor}
    (asked : ItemsAsk registry.alternatives config chosen.pattern.items start pair) :
    registry.alternatives pair.1 ≠ [] := by
  obtain ⟨slot, member, target⟩ := asked.target
  exact alternatives_of_names sensible.wellFormed sensible.defined registered member target

/-- If every alternative asks for something, then no type is hollow that has any. -/
theorem Complete.solidType (complete : Complete registry) {name : String}
    (hollow : HollowType registry.alternatives name) : registry.alternatives name = [] := by
  induction hollow with
  | @intro name named _ ih =>
    by_contra some
    obtain ⟨chosen, member⟩ := List.exists_mem_of_ne_nil _ some
    have registered := alternatives_subset registry name member
    obtain ⟨item, listed⟩ := List.exists_mem_of_ne_nil _ (complete.throughout chosen registered)
    obtain ⟨type, names⟩ := named chosen member item listed
    cases item with
    | literal => exact names.elim
    | placeholder slot =>
      exact alternatives_of_names complete.wellFormed complete.defined registered listed names
        (ih chosen member _ listed type names)

theorem Complete.not_hollow (complete : Complete registry) {chosen : Alternative ε κ}
    (registered : chosen ∈ registry.allAlternatives) {item : Item}
    (member : item ∈ chosen.pattern.items) : ¬item.Hollow registry.alternatives := by
  rintro ⟨type, names, hollow⟩
  cases item with
  | literal => exact names.elim
  | placeholder slot =>
    exact alternatives_of_names complete.wellFormed complete.defined registered member names
      (complete.solidType hollow)

theorem Complete.sensible (complete : Complete registry) : Sensible registry :=
  ⟨complete.wellFormed, fun _ registered _ member _ => complete.not_hollow registered member,
    complete.defined⟩

-- The induction is on the levels that are left for types within types.
private theorem type_goes_within (sensible : Sensible registry)
    (acyclic : NoLeftRecursion registry.alternatives config text) {levels : Nat}
    {chain : List (String × Cursor)} {pair : String × Cursor}
    (within : Within registry.alternatives config text chain pair)
    (enough : registry.typeNames.length * (Text.byteSize text + 1) < levels + chain.length)
    (some : registry.alternatives pair.1 ≠ []) {context : Context} (other : context ≠ .some pair) :
    TypeGoes registry.alternatives config (canonical registry config text) context pair := by
  induction levels generalizing chain pair context with
  | zero =>
    have known name (some : registry.alternatives name ≠ []) : name ∈ registry.typeNames :=
      mem_typeNames some
    have bound := within.length_le known
    omega
  | succ levels ih =>
    have noMutual := acyclic.noMutual registry.alternatives config
    have inside := within.inside pair List.mem_cons_self
    have sound := canonical_sound registry config text
    have fillable {chosen} (member : chosen ∈ registry.alternatives pair.1) :=
      sensible.fillable (alternatives_subset registry pair.1 member)
    have types {chosen} (member : chosen ∈ registry.alternatives pair.1) inner
        (asked : ItemsAsk registry.alternatives config chosen.pattern.items pair.2 inner) :
        TypeGoes registry.alternatives config (canonical registry config text) (.some pair) inner := by
      have asks : Asks registry.alternatives config pair inner := ⟨chosen, member, asked⟩
      have differs : inner ≠ pair := fun same => acyclic pair inside (.single (same ▸ asks))
      exact ih (within.next noMutual asks differs) (by rw [List.length_cons]; omega)
        (sensible.asked (alternatives_subset registry pair.1 member) asked)
        fun same => differs (Option.some.inj same).symm
    -- The type gets as far as any of its alternatives.
    have type {note stop chosen} (member : chosen ∈ registry.alternatives pair.1)
        (items : GetsTo note stop (TriesItems registry.alternatives config
            (canonical registry config text) (.some pair) chosen.pattern.items pair.2)
          ((items config (Matching.within (.some pair) (canonical registry config text))
            chosen.pattern.items pair.2).map Chain.stop)) :
        GetsTo note stop
          (TriesType registry.alternatives config (canonical registry config text) pair.1 pair.2)
          ((canonical registry config text pair.1 pair.2).map TypeReading.stop) := by
      refine items.mono (fun _ tried => .alternative member tried) fun stop listed => ?_
      rw [canonical_unfold noMutual inside, stops_oneOf]
      exact List.mem_flatMap.mpr ⟨chosen, member, listed⟩
    refine ⟨other, ?_, fun solid => ?_⟩
    · obtain ⟨chosen, member⟩ := List.exists_mem_of_ne_nil _ some
      exact type member (items_go sound (fillable member) (types member))
    · obtain ⟨chosen, member, someSolid⟩ := exists_solid solid
      exact type member (items_move sound (fillable member) someSolid (types member))

/-- Wherever a type is asked for, it goes on. -/
theorem asked_goes (sensible : Sensible registry)
    (acyclic : NoLeftRecursion registry.alternatives config text) {context : Context}
    {start : Cursor} (inside : start.In text) {chosen : Alternative ε κ}
    (registered : chosen ∈ registry.allAlternatives) {pair : String × Cursor}
    (asked : ItemsAsk registry.alternatives config chosen.pattern.items start pair)
    (other : context ≠ some pair) :
    TypeGoes registry.alternatives config (canonical registry config text) context pair := by
  obtain ⟨_, passes⟩ := asked.passes
  have enough : registry.typeNames.length * (Text.byteSize text + 1) <
      levelsFor registry text + ([] : List (String × Cursor)).length := by
    simp [levelsFor, Registry.typeNames]
  exact type_goes_within sensible acyclic (.alone (inside.passes passes)) enough
    (sensible.asked registered asked) other

end SentenceGrammar.Matching
