import SentenceGrammar.Proofs.LongerText
import SentenceGrammar.Proofs.Refinement

/-!
# Readings of a text and of its beginning

Whatever derives in the beginning of a text derives in the whole of it. So the readings of the
beginning are those of the whole text that do not go on behind the end of the beginning, in the same
order of preference.
-/
namespace SentenceGrammar

namespace Cursor

variable {front more : List Char} {start place : Cursor}

theorem continued_injective (more : List Char) : Function.Injective (continued more) := by
  intro first second same
  obtain ⟨offset, rests⟩ := Cursor.mk.inj same
  cases first
  cases second
  exact congrArg₂ Cursor.mk offset (List.append_cancel_right rests)

theorem In.continued (inside : place.In front) (more : List Char) :
    (place.continued more).In (front ++ more) := by
  obtain ⟨word, passes⟩ := inside
  exact ⟨word, passes.continued more⟩

/-- The places of a text that are not behind the end of its beginning are those of the beginning. -/
theorem In.exists_continued (inside : place.In (front ++ more))
    (early : place.offset ≤ Text.byteSize front) :
    ∃ earlier : Cursor, earlier.In front ∧ place = earlier.continued more := by
  obtain ⟨word, passes⟩ := inside
  have whole : front ++ more = word ++ place.rest := passes.rest_eq
  have offset : place.offset = Text.byteSize word := by simpa using passes.offset_eq
  rcases List.append_eq_append_iff.mp whole with ⟨behind, rfl, rfl⟩ | ⟨rest, rfl, shape⟩
  -- A word that is not shorter than the beginning is the beginning.
  · rw [offset, Text.byteSize_append] at early
    obtain rfl := (Text.byteSize_eq_zero_iff behind).mp (by omega)
    refine ⟨⟨place.offset, []⟩, ⟨front, ⟨by simp, by simp [offset]⟩⟩, ?_⟩
    simp [Cursor.continued]
  · refine ⟨⟨place.offset, rest⟩, ⟨word, ⟨rfl, by simp [offset]⟩⟩, ?_⟩
    rw [Cursor.continued, ← shape]

end Cursor

namespace Matching

open Cursor (continued)
open Enumerate

variable {ε κ : Type} {rules : String → List (Alternative ε κ)} {config : Config}
  {front more : List Char} {start stop : Cursor}

/-! ### Derivations in a longer text -/

theorem Opening.continued {count : Nat} {nodes : List (Node ε κ)}
    (opening : Opening config count start stop nodes) (more : List Char) :
    Opening config count (start.continued more) (stop.continued more) nodes := by
  cases opening with
  | first => exact .first _
  | adjacent _ _ unseparated => exact .adjacent _ _ unseparated
  | separated further separator passes =>
    exact .separated further separator (passes.continued more)

mutual

theorem DerivesUnit.continued (more : List Char) {slot : Placeholder} {start stop : Cursor}
    {node : Node ε κ} : DerivesUnit rules config slot start stop node →
      DerivesUnit rules config slot (start.continued more) (stop.continued more) node
  | .number target numeral passes => .number target numeral (passes.continued more)
  | .type target member items passes =>
    .type target member (items.continued more) (passes.continued more)

theorem DerivesUnits.continued (more : List Char) {slot : Placeholder} {count total : Nat}
    {start stop : Cursor} {nodes : List (Node ε κ)} :
    DerivesUnits rules config slot count total start stop nodes →
      DerivesUnits rules config slot count total (start.continued more) (stop.continued more) nodes
  | .done _ _ _ => .done _ _ _
  | .more separator unit moved rest =>
    .more (separator.continued more) (unit.continued more) moved (rest.continued more)

theorem DerivesItem.continued (more : List Char) {item : Item} {start stop : Cursor}
    {node : Node ε κ} : DerivesItem rules config item start stop node →
      DerivesItem rules config item (start.continued more) (stop.continued more) node
  | .literal passes => .literal (passes.continued more)
  | .run target accepted count passes => .run target accepted count (passes.continued more)
  | .single target one unit => .single target one (unit.continued more)
  | .repetition target several count units passes =>
    .repetition target several count (units.continued more) (passes.continued more)

theorem DerivesItems.continued (more : List Char) {items : List Item} {start stop : Cursor}
    {nodes : List (Node ε κ)} : DerivesItems rules config items start stop nodes →
      DerivesItems rules config items (start.continued more) (stop.continued more) nodes
  | .nil _ => .nil _
  | .cons first others => .cons (first.continued more) (others.continued more)

end

theorem UnitAt.continued {slot : Placeholder} {count : Nat} {place : Cursor}
    (asked : UnitAt rules config slot count start place) (more : List Char) :
    UnitAt rules config slot count (start.continued more) (place.continued more) := by
  induction asked with
  | here further separator => exact .here further (separator.continued more)
  | later further separator unit moved _ ih =>
    exact .later further (separator.continued more) (unit.continued more) moved ih

theorem ItemsAsk.continued {items : List Item} {pair : String × Cursor}
    (asked : ItemsAsk rules config items start pair) (more : List Char) :
    ItemsAsk rules config items (start.continued more) (pair.1, pair.2.continued more) := by
  induction asked with
  | here target unit => exact .here target (unit.continued more)
  | later first _ ih => exact .later (first.continued more) ih

-- What types ask for in the beginning, they ask for in the whole text.
private theorem asks_continued (more : List Char) {outer inner : String × Cursor}
    (asks : Relation.TransGen (Asks rules config) outer inner) :
    Relation.TransGen (Asks rules config) (outer.1, outer.2.continued more)
      (inner.1, inner.2.continued more) :=
  asks.lift (fun pair : String × Cursor => (pair.1, pair.2.continued more))
    fun _ _ ⟨chosen, member, asked⟩ => ⟨chosen, member, asked.continued more⟩

theorem NoMutualLeftRecursion.beginning
    (noMutual : NoMutualLeftRecursion rules config (front ++ more)) :
    NoMutualLeftRecursion rules config front := by
  intro first second inside there back
  obtain ⟨name, place⟩ := Prod.mk.inj (noMutual _ _ (inside.continued more)
    (asks_continued more there) (asks_continued more back))
  exact Prod.ext name (Cursor.continued_injective more place)

/-! ### Places of the beginning -/

/-- The places of the beginning of a text are those of the whole text that are not behind its end. -/
def Restricts (limit : Nat) (more : List Char) (long short : List Cursor) : Prop :=
  long.filter (fun stop => stop.offset ≤ limit) = short.map (continued more)

namespace Restricts

variable {limit : Nat} {long short long' short' : List Cursor}

theorem nil : Restricts limit more [] [] := rfl

theorem singleton (early : start.offset ≤ limit) :
    Restricts limit more [start.continued more] [start] := by
  simp [Restricts, early]

theorem append (first : Restricts limit more long short)
    (second : Restricts limit more long' short') :
    Restricts limit more (long ++ long') (short ++ short') := by
  rw [Restricts, List.filter_append, first, second, List.map_append]

/-- What comes behind the end of the beginning does not come back. -/
theorem flatMap {next next' : Cursor → List Cursor} (restricts : Restricts limit more long short)
    (same : ∀ stop ∈ short, Restricts limit more (next (stop.continued more)) (next' stop))
    (beyond : ∀ stop ∈ long, ∀ later ∈ next stop, stop.offset ≤ later.offset) :
    Restricts limit more (long.flatMap next) (short.flatMap next') := by
  have late stop (member : stop ∈ long) (late : decide (stop.offset ≤ limit) = false) :
      ∀ later ∈ next stop, decide (later.offset ≤ limit) = false := by
    simp only [decide_eq_false_iff_not, Nat.not_le] at late ⊢
    exact fun later listed => Nat.lt_of_lt_of_le late (beyond stop member later listed)
  rw [Restricts, filter_flatMap_of_late _ _ late, restricts, List.flatMap_map, List.map_flatMap]
  exact List.flatMap_congr fun stop member => same stop member

theorem mem {stop : Cursor} (restricts : Restricts limit more long short) (member : stop ∈ short) :
    stop.continued more ∈ long := by
  have found : stop.continued more ∈ short.map (continued more) := List.mem_map_of_mem member
  rw [← restricts] at found
  exact (List.mem_filter.mp found).1

theorem exists_mem (restricts : Restricts limit more long short) (member : stop ∈ long)
    (early : stop.offset ≤ limit) : ∃ earlier ∈ short, stop = earlier.continued more := by
  have found : stop ∈ long.filter fun stop => stop.offset ≤ limit :=
    List.mem_filter.mpr ⟨member, decide_eq_true early⟩
  rw [restricts] at found
  obtain ⟨earlier, listed, same⟩ := List.mem_map.mp found
  exact ⟨earlier, listed, same.symm⟩

/-- The same where the places are where readings stop. -/
theorem exists_of_map {α : Type} {stop : α → Cursor} {readings earlier : List α} {reading : α}
    (restricts : Restricts limit more (readings.map stop) (earlier.map stop))
    (member : reading ∈ readings) (early : (stop reading).offset ≤ limit) :
    ∃ same ∈ earlier, stop reading = (stop same).continued more := by
  obtain ⟨_, listed, there⟩ := restricts.exists_mem (List.mem_map_of_mem member) early
  obtain ⟨same, member, rfl⟩ := List.mem_map.mp listed
  exact ⟨same, member, there⟩

end Restricts

theorem behind_restricts (language : List Char → Bool) (start : Cursor) (more : List Char) :
    Restricts (start.offset + Text.byteSize start.rest) more
      ((start.continued more).behind language) (start.behind language) := by
  obtain ⟨offset, rest⟩ := start
  induction rest generalizing offset language with
  | nil =>
    -- Nothing of the longer text behind this place is in the shorter one.
    have beyond : ((⟨offset, more⟩ : Cursor).beyond language).filter
        (fun stop => stop.offset ≤ offset + Text.byteSize []) = [] := by
      simp only [List.filter_eq_nil_iff, decide_eq_true_eq, Nat.not_le]
      intro stop member
      obtain ⟨word, passes, accepted⟩ := Cursor.mem_behind.mp member
      refine Nat.lt_of_le_of_ne passes.offset_le fun same => ?_
      simp [passes.word_eq_nil_iff.mpr same.symm] at accepted
    have longer : continued more ⟨offset, []⟩ = ⟨offset, more⟩ := rfl
    rw [Restricts, longer, Cursor.behind_nil, Cursor.behind_eq_beyond, List.filter_append, beyond]
    split <;> simp [longer]
  | cons c rest ih =>
    have shift : offset + Text.byteSize (c :: rest) =
        offset + c.utf8Size + Text.byteSize rest := by
      rw [Text.byteSize_cons, Nat.add_assoc]
    have further := ih (fun word => language (c :: word)) (offset + c.utf8Size)
    have longer (offset : Nat) : continued more ⟨offset, c :: rest⟩ =
      ⟨offset, c :: (rest ++ more)⟩ := rfl
    rw [longer, Cursor.behind_cons, Cursor.behind_cons, shift]
    refine further.append ?_
    split
    · have early : (⟨offset, c :: rest⟩ : Cursor).offset ≤
          offset + c.utf8Size + Text.byteSize rest := by
        simp only
        omega
      exact .singleton early
    · exact .nil

theorem restricts_behind (inside : start.In front) (language : List Char → Bool) :
    Restricts (Text.byteSize front) more ((start.continued more).behind language)
      (start.behind language) :=
  inside.offset_add ▸ behind_restricts language start more

/-! ### Where readings stop -/

section

variable {ask : String → Cursor → List (TypeReading ε κ)}

theorem stops_words (language : List Char → Bool) (name : Option String) (kind : NodeKind ε κ)
    (start : Cursor) : (words language name kind start).map Reading.stop = start.behind language := by
  simp [words, Function.comp_def]

theorem stops_units (slot : Placeholder) (count : Nat) (start : Cursor) :
    (units config ask slot count start).map Chain.stop =
      (if slot.quantifier.allowsMore count then
        ((openings (ε := ε) (κ := κ) config count start).map Chain.stop).flatMap fun opened =>
          ((unit ask slot opened).map Reading.stop).flatMap fun stop =>
            if stop.rest.length < start.rest.length then
              (units config ask slot (count + 1) stop).map Chain.stop
            else []
      else []) ++ if slot.quantifier.admits count then [start] else [] := by
  rw [units, List.map_append, apply_ite (List.map _), apply_ite (List.map _)]
  simp only [List.map_flatMap, List.flatMap_map, apply_ite (List.map _), List.map_map,
    Function.comp_def, List.map_nil, List.map_cons]

theorem stops_items (first : Item) (rest : List Item) (start : Cursor) :
    (items config ask (first :: rest) start).map Chain.stop =
      ((item config ask first start).map Reading.stop).flatMap fun stop =>
        (items config ask rest stop).map Chain.stop := by
  simp only [items, List.map_flatMap, List.flatMap_map, List.map_map, Function.comp_def]

theorem stops_oneOf (alternatives : List (Alternative ε κ)) (start : Cursor) :
    (oneOf config ask alternatives start).map TypeReading.stop =
      alternatives.flatMap fun chosen =>
        (items config ask chosen.pattern.items start).map Chain.stop := by
  simp only [oneOf, List.map_flatMap, List.map_map, Function.comp_def]

end

variable (rules config front more) in
/-- One way to read types in the whole text and one in its beginning: they are sound, and those
readings of the beginning are the same. -/
structure Fronts (long short : String → Cursor → List (TypeReading ε κ)) : Prop where
  whole : Sound rules config long
  beginning : Sound rules config short
  same : ∀ name (place : Cursor), place.In front → Restricts (Text.byteSize front) more
    ((long name (place.continued more)).map TypeReading.stop)
    ((short name place).map TypeReading.stop)

section

variable {long short : String → Cursor → List (TypeReading ε κ)}

/-- Units do not stop in front of the place where they begin. -/
private theorem further_of_units {ask : String → Cursor → List (TypeReading ε κ)}
    (sound : Sound rules config ask) {slot : Placeholder} {count : Nat}
    (member : stop ∈ (units config ask slot count start).map Chain.stop) :
    start.offset ≤ stop.offset := by
  obtain ⟨chain, listed, rfl⟩ := List.mem_map.mp member
  obtain ⟨_, _, derived⟩ := derives_of_mem_units sound listed
  obtain ⟨_, passes⟩ := derived.passes
  exact passes.offset_le

theorem unit_restricts (fronts : Fronts rules config front more long short) (slot : Placeholder)
    (inside : start.In front) : Restricts (Text.byteSize front) more
      ((unit long slot (start.continued more)).map Reading.stop)
      ((unit short slot start).map Reading.stop) := by
  rw [unit, unit]
  split
  · rw [stops_words, stops_words]
    exact restricts_behind inside _
  · simp only [List.map_map, Function.comp_def]
    exact fronts.same _ _ inside
  · exact .nil

theorem openings_restricts (count : Nat) (inside : start.In front) :
    Restricts (Text.byteSize front) more
      ((openings (ε := ε) (κ := κ) config count (start.continued more)).map Chain.stop)
      ((openings (ε := ε) (κ := κ) config count start).map Chain.stop) := by
  rw [openings, openings]
  split
  · split
    · exact .singleton inside.offset_le
    · simp only [List.map_map, Function.comp_def]
      rw [stops_words, stops_words]
      exact restricts_behind inside _
  · exact .singleton inside.offset_le

theorem units_restricts (fronts : Fronts rules config front more long short) (slot : Placeholder)
    (count : Nat) {start : Cursor} (inside : start.In front) :
    Restricts (Text.byteSize front) more
      ((units config long slot count (start.continued more)).map Chain.stop)
      ((units config short slot count start).map Chain.stop) := by
  rw [stops_units, stops_units]
  refine .append ?_ ?_
  · split
    · refine (openings_restricts count inside).flatMap (fun opened member => ?_)
        fun opened _ later member => ?_
      · obtain ⟨opening, listed, rfl⟩ := List.mem_map.mp member
        obtain ⟨_, before⟩ := (mem_openings.mp listed).passes
        have opened := inside.passes before
        refine (unit_restricts fronts slot opened).flatMap (fun stop member => ?_)
          fun stop _ later member => ?_
        · obtain ⟨found, read, rfl⟩ := List.mem_map.mp member
          obtain ⟨_, behind⟩ := (derives_of_mem_unit fronts.beginning read).passes
          simp only [Cursor.continued_rest, List.length_append, Nat.add_lt_add_iff_right]
          split
          · exact units_restricts fronts slot (count + 1) (opened.passes behind)
          · exact .nil
        · exact further_of_units fronts.whole (List.mem_ite_nil_right.mp member).2
      · obtain ⟨stop, read, behind⟩ := List.mem_flatMap.mp member
        obtain ⟨found, listed, rfl⟩ := List.mem_map.mp read
        obtain ⟨_, passes⟩ := (derives_of_mem_unit fronts.whole listed).passes
        exact passes.offset_le.trans
          (further_of_units fronts.whole (List.mem_ite_nil_right.mp behind).2)
    · exact .nil
  · split
    · exact .singleton inside.offset_le
    · exact .nil
termination_by start.rest.length

theorem item_restricts (fronts : Fronts rules config front more long short) (item : Item)
    (inside : start.In front) : Restricts (Text.byteSize front) more
      ((Enumerate.item config long item (start.continued more)).map Reading.stop)
      ((Enumerate.item config short item start).map Reading.stop) := by
  cases item with
  | literal text span =>
    rw [Enumerate.item, Enumerate.item, stops_words, stops_words]
    exact restricts_behind inside _
  | placeholder slot =>
    rw [Enumerate.item, Enumerate.item]
    split
    · rw [stops_words, stops_words]
      exact restricts_behind inside _
    · split
      · exact unit_restricts fronts slot inside
      · simp only [List.map_map, Function.comp_def]
        exact units_restricts fronts slot 0 inside

theorem items_restricts (fronts : Fronts rules config front more long short) (list : List Item)
    (inside : start.In front) : Restricts (Text.byteSize front) more
      ((items config long list (start.continued more)).map Chain.stop)
      ((items config short list start).map Chain.stop) := by
  induction list generalizing start with
  | nil => exact .singleton inside.offset_le
  | cons first rest ih =>
    rw [stops_items, stops_items]
    refine (item_restricts fronts first inside).flatMap (fun stop member => ?_)
      fun stop _ later member => ?_
    · obtain ⟨found, read, rfl⟩ := List.mem_map.mp member
      obtain ⟨_, passes⟩ := (derives_of_mem_item fronts.beginning read).passes
      exact ih (inside.passes passes)
    · obtain ⟨chain, read, rfl⟩ := List.mem_map.mp member
      obtain ⟨_, passes⟩ := (derives_of_mem_items fronts.whole read).passes
      exact passes.offset_le

theorem oneOf_restricts (fronts : Fronts rules config front more long short)
    (alternatives : List (Alternative ε κ)) (inside : start.In front) :
    Restricts (Text.byteSize front) more
      ((oneOf config long alternatives (start.continued more)).map TypeReading.stop)
      ((oneOf config short alternatives start).map TypeReading.stop) := by
  rw [stops_oneOf, stops_oneOf]
  induction alternatives with
  | nil => exact .nil
  | cons chosen rest ih => exact (items_restricts fronts chosen.pattern.items inside).append ih

/-- A type that has no reading in itself has none there in either text. -/
theorem Fronts.avoiding (fronts : Fronts rules config front more long short) (name : String)
    (start : Cursor) : Fronts rules config front more
      (avoiding name (start.continued more) long) (avoiding name start short) where
  whole := avoiding_sound fronts.whole
  beginning := avoiding_sound fronts.beginning
  same inner place inside := by
    simp only [Enumerate.avoiding, (Cursor.continued_injective more).eq_iff]
    split
    · exact .nil
    · exact fronts.same inner place inside

end

/-! ### Types -/

theorem type_fronts (rules : String → List (Alternative ε κ)) (config : Config)
    (front more : List Char) (levels : Nat) :
    Fronts rules config front more (type rules config levels) (type rules config levels) := by
  refine ⟨type_sound levels, type_sound levels, ?_⟩
  induction levels with
  | zero => exact fun _ _ _ => .nil
  | succ levels ih =>
    intro name place inside
    have fronts : Fronts rules config front more (type rules config levels)
        (type rules config levels) := ⟨type_sound levels, type_sound levels, ih⟩
    exact oneOf_restricts (fronts.avoiding name place) (rules name) inside

variable {registry : Registry ε κ}

/-- More levels than there are names and places make no difference. -/
theorem type_eq_canonical {text : List Char}
    (noMutual : NoMutualLeftRecursion registry.alternatives config text) {levels : Nat}
    (enough : levelsFor registry text ≤ levels) (name : String) {place : Cursor}
    (inside : place.In text) :
    type registry.alternatives config levels name place =
      canonical registry config text name place := by
  induction levels, enough using Nat.le_induction with
  | base => rfl
  | succ levels enough ih =>
    rw [← ih]
    have more : levelsFor registry text ≤ levels := enough
    have alone : Within registry.alternatives config text [] (name, place) := .alone inside
    refine type_succ noMutual (fun _ => mem_typeNames) alone ?_
    simp only [levelsFor, Registry.typeNames, List.length_map, List.length_nil] at more ⊢
    omega

theorem canonical_fronts
    (noMutual : NoMutualLeftRecursion registry.alternatives config (front ++ more)) :
    Fronts registry.alternatives config front more (canonical registry config (front ++ more))
      (canonical registry config front) where
  whole := canonical_sound registry config _
  beginning := canonical_sound registry config _
  same name place inside := by
    have enough : levelsFor registry front ≤ levelsFor registry (front ++ more) := by
      have size := Text.byteSize_append front more
      exact Nat.succ_le_succ (Nat.mul_le_mul_left _ (by omega))
    rw [← type_eq_canonical noMutual.beginning enough name inside]
    exact (type_fronts registry.alternatives config front more _).same name place inside

/-! ### Sentences -/

/-- Where the sentences at a place end, in the order of preference. -/
def canonicalEnds (registry : Registry ε κ) (config : Config) (text : List Char) (place : Cursor) :
    List Cursor :=
  (firstTypeReadings (oneOf config (canonical registry config text) registry.sentences place)).map
    TypeReading.stop

theorem canonicalEnds_passes {text : List Char} {place stop : Cursor}
    (member : stop ∈ canonicalEnds registry config text place) : ∃ word, place.Passes word stop := by
  obtain ⟨reading, kept, rfl⟩ := List.mem_map.mp member
  exact (derives_of_mem_oneOf (canonical_sound registry config text)
    ((keepNew_sublist _ _ _).subset kept)).2.passes

theorem canonicalEnds_inside (registry : Registry ε κ) (config : Config) (text : List Char)
    {place stop : Cursor} (inside : place.In text)
    (member : stop ∈ canonicalEnds registry config text place) : stop.In text := by
  obtain ⟨_, passes⟩ := canonicalEnds_passes member
  exact inside.passes passes

theorem canonicalEnds_restricts
    (noMutual : NoMutualLeftRecursion registry.alternatives config (front ++ more))
    (inside : start.In front) : Restricts (Text.byteSize front) more
      (canonicalEnds registry config (front ++ more) (start.continued more))
      (canonicalEnds registry config front start) := by
  have ends := oneOf_restricts (canonical_fronts noMutual) registry.sentences inside
  simp only [canonicalEnds, firstTypeReadings]
  rw [← keepNew_map Cursor.offset, ← keepNew_map Cursor.offset, Restricts]
  have kept (list : List Cursor) : (keepNew Cursor.offset [] list).filter
        (fun stop => stop.offset ≤ Text.byteSize front) =
      keepNew Cursor.offset [] (list.filter fun stop => stop.offset ≤ Text.byteSize front) :=
    filter_keepNew (fun offset => offset ≤ Text.byteSize front) (fun _ _ => Iff.rfl) list
  rw [kept, ends, keepNew_map]
  rfl

end Matching
end SentenceGrammar
