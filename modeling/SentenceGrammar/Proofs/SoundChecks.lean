import SentenceGrammar.Proofs.Checks
import SentenceGrammar.Proofs.Termination

/-!
# Checks hold

In a text of less than `2 ^ 32` bytes no check of a search fails. All that a search reads goes from a
place of the text to a later one, so it can be cut out of the text there, and literals are cut behind
characters that they share with the text. Nothing is counted more often than there are bytes: a run
counts characters, and behind every unit that counts a repetition is further on.

## Main result

`search_stays_within`: a checked search of a script does just what the search does, whatever the
alarm is.
-/
namespace SentenceGrammar

variable {ε κ : Type} {text word : List Char} {start stop place : Cursor}

/-! ### Cutting texts -/

theorem Text.from?_append (front back : List Char) :
    Text.from? (Text.byteSize front) (front ++ back) = some back := by
  rw [Text.from?, Text.splitAt?_append]
  rfl

theorem Cursor.In.from? (inside : place.In text) :
    Text.from? place.offset text = some place.rest := by
  obtain ⟨front, passes⟩ := inside
  have offset : place.offset = Text.byteSize front := by simpa using passes.offset_eq
  have parts : text = front ++ place.rest := passes.rest_eq
  rw [offset, parts, Text.from?_append]

theorem Cursor.Passes.spanTo_le (passes : start.Passes word stop) :
    (start.spanTo stop).start ≤ (start.spanTo stop).stop := by
  have order := passes.offset_le
  simp only [spanTo, Span.ofOffsets]
  omega

namespace Node

variable {name : Option String} {kind : NodeKind ε κ} {children : List (Node ε κ)}

theorem displays_covering (small : Text.byteSize text ≤ Span.limit) (inside : start.In text)
    (passes : start.Passes word stop) :
    (covering start stop name kind children).Displays text := by
  rw [covering_eq passes]
  exact ⟨passes.spanTo_le, slice_text inside rfl (by simpa using passes) small⟩

theorem displays_cutOff (small : Text.byteSize text ≤ Span.limit) (inside : start.In text) :
    (cutOff start name kind children).Displays text := by
  have passes := start.passes_finish
  exact ⟨passes.spanTo_le, slice_text inside rfl (by simpa [cutOff] using passes) small⟩

end Node

namespace Matching

variable {alarm : Search ε κ Unit} {scope : Scope ε κ} {kept : Known ε κ → Prop}

/-! ### Single checks -/

theorem require_eq {condition : Prop} [Decidable condition] (holds : condition) :
    Checked.require alarm condition = pure () := if_pos holds

theorem visit_eq (inside : place.In text) : Checked.visit alarm text place = pure () :=
  require_eq inside.from?

theorem remainder_eq {literal : String} {front missing : List Char}
    (parts : literal.toList = front ++ missing) :
    Checked.remainder alarm literal (Text.byteSize front) = pure (String.ofList missing) := by
  rw [Checked.remainder, parts, Text.from?_append]

theorem expect_eq (inside : place.In text) (expected : Expected) :
    Checked.expect alarm text scope place expected = expect scope place expected := by
  rw [Checked.expect, visit_eq inside, pure_bind]

theorem forM_eq {α : Type} {list : List α} {check : α → Search ε κ Unit}
    (each : ∀ a ∈ list, check a = pure ()) : list.forM check = pure () := by
  induction list with
  | nil => rfl
  | cons a rest ih =>
    change (check a >>= fun _ => rest.forM check) = pure ()
    rw [each a List.mem_cons_self, pure_bind]
    exact ih fun a member => each a (List.mem_cons_of_mem _ member)

theorem forM_congr {α : Type} {list : List α} {one other : α → Search ε κ Unit}
    (each : ∀ a ∈ list, one a = other a) : list.forM one = list.forM other := by
  induction list with
  | nil => rfl
  | cons a rest ih =>
    change (one a >>= fun _ => rest.forM one) = (other a >>= fun _ => rest.forM other)
    rw [each a List.mem_cons_self, ih fun a member => each a (List.mem_cons_of_mem _ member)]

/-- Nodes from a place of the text to one that is behind it, or to the end, are in order. -/
theorem inspect_eq (small : Text.byteSize text ≤ Span.limit) (inside : start.In text)
    {readings : Readings ε κ}
    (whole : ∀ found ∈ readings.whole, (∃ word, start.Passes word found.stop) ∧
      ∃ name kind children, found.node = .covering start found.stop name kind children)
    (cut : ∀ node ∈ readings.cut, ∃ name kind children, node = .cutOff start name kind children) :
    Checked.inspect alarm text readings = pure readings := by
  rw [Checked.inspect, forM_eq, pure_bind, forM_eq, pure_bind]
  · intro node member
    obtain ⟨_, _, _, rfl⟩ := cut node member
    exact require_eq (Node.displays_cutOff small inside)
  · intro found member
    obtain ⟨⟨_, passes⟩, _, _, _, same⟩ := whole found member
    rw [visit_eq (inside.passes passes), pure_bind, same]
    exact require_eq (Node.displays_covering small inside passes)

/-! ### Terminals -/

theorem readLiteral_eq (small : Text.byteSize text ≤ Span.limit) (inside : start.In text)
    (literal : String) :
    Checked.readLiteral alarm text scope literal start = readLiteral scope literal start := by
  have stops := scanLiteral_stops literal.toList start
  rw [Checked.readLiteral, readLiteral, visit_eq inside, pure_bind]
  cases scanned : scanLiteral literal.toList start with
  | whole stop =>
    rw [scanned] at stops
    have member : stop ∈ start.behind (· == literal.toList) := stops ▸ List.mem_singleton_self stop
    obtain ⟨_, passes, -⟩ := Cursor.mem_behind.mp member
    refine inspect_eq small inside (fun found listed => ?_) (by simp)
    obtain rfl := List.mem_singleton.mp listed
    exact ⟨⟨_, passes⟩, _, _, _, rfl⟩
  | ended missing =>
    obtain ⟨-, parts⟩ := scanLiteral_ended scanned
    -- The literal is cut behind as many bytes as are left of the text.
    have left : Text.byteSize text - start.offset = Text.byteSize start.rest := by
      have total := inside.offset_add
      omega
    dsimp only
    rw [left, remainder_eq parts, pure_bind, expect_eq (inside.passes start.passes_finish)]
    refine congrArg _ (funext fun _ => inspect_eq small inside (by simp) fun node member => ?_)
    exact ⟨_, _, _, mem_keep member⟩
  | differs place missing =>
    obtain ⟨-, word, passes, parts⟩ := scanLiteral_differs scanned
    -- It is cut behind the bytes that it has in common with the text.
    have read : place.offset - start.offset = Text.byteSize word := by
      rw [passes.offset_eq, Nat.add_sub_cancel_left]
    dsimp only
    rw [read, remainder_eq parts, pure_bind, expect_eq (inside.passes passes)]

theorem runCount_le (quantifier : Quantifier) (accepts : Char → Bool) (done : Nat)
    (rest : List Char) :
    Checked.runCount quantifier accepts done rest ≤ done + Text.byteSize rest := by
  induction rest generalizing done with
  | nil => exact Nat.le_refl _
  | cons c more ih =>
    rw [Checked.runCount, Text.byteSize_cons]
    split
    · have behind := ih (done + 1)
      have size := c.utf8Size_pos
      omega
    · exact Nat.le_add_right _ _

theorem readRun_eq (small : Text.byteSize text ≤ Span.limit) (inside : start.In text)
    (slot : Placeholder) (accepts : Char → Bool) (expected : Expected) (kind : NodeKind ε κ) :
    Checked.readRun alarm text scope slot accepts expected kind start =
      readRun scope slot accepts expected kind start := by
  have stops := scanRun_stops slot.quantifier accepts start
  obtain ⟨_, reaches⟩ := scanRun_reaches slot.quantifier accepts [] 0 start.offset start.rest
  have count := runCount_le slot.quantifier accepts 0 start.rest
  have total := inside.offset_add
  rw [Checked.readRun, readRun, visit_eq inside, pure_bind, require_eq (by omega), pure_bind]
  cases scanned : scanRun slot.quantifier accepts [] 0 start.offset start.rest with
  | mk scan extendable =>
    rw [scanned] at stops reaches
    dsimp only
    rw [expect_eq (inside.passes reaches), inspect_eq small inside (fun found member => ?whole)
      fun node member => ?cut]
    case whole =>
      obtain ⟨stop, listed, rfl⟩ := List.mem_map.mp member
      rw [stops] at listed
      obtain ⟨_, passes, -⟩ := Cursor.mem_behind.mp listed
      exact ⟨⟨_, passes⟩, _, _, _, rfl⟩
    case cut => exact ⟨_, _, _, mem_keep (List.mem_ite_nil_right.mp member).2⟩

theorem readNumber_eq (small : Text.byteSize text ≤ Span.limit) (inside : start.In text)
    (slot : Placeholder) {type : Builtin} (numeric : type.accepts? = none) :
    Checked.readNumber alarm text scope slot type start = readNumber scope slot type start := by
  have stops := scanNumber_stops numeric start
  obtain ⟨_, reaches⟩ := scanNumber_reaches (type = .float) start
  -- The bytes behind the place are those of the characters behind it.
  have behind : (Text.bytes text).drop start.offset = Text.bytes start.rest := by
    obtain ⟨front, passes⟩ := inside
    have size : start.offset = (Text.bytes front).length := by
      simpa [Text.length_bytes] using passes.offset_eq
    have parts : text = front ++ start.rest := passes.rest_eq
    rw [parts, Text.bytes_append, size, List.drop_left]
  rw [Checked.readNumber, readNumber]
  dsimp only
  rw [behind, require_eq (scanBytes_eq _ start), pure_bind, expect_eq (inside.passes reaches),
    inspect_eq small inside (fun found member => ?whole) fun node member => ?cut]
  case whole =>
    obtain ⟨stop, listed, rfl⟩ := List.mem_map.mp member
    rw [stops] at listed
    obtain ⟨_, passes, -⟩ := Cursor.mem_behind.mp listed
    exact ⟨⟨_, passes⟩, _, _, _, rfl⟩
  case cut => exact ⟨_, _, _, mem_keep (List.mem_ite_nil_right.mp member).2⟩

/-! ### Items -/

variable {rules : String → List (Alternative ε κ)} {checked named : TypeReader ε κ}

theorem readUnit_checked (small : Text.byteSize text ≤ Span.limit)
    (agree : NamedAgree rules text kept scope checked named) {slot : Placeholder}
    (several : slot.target.single? = none) (inside : start.In text) :
    Agree kept (Checked.readUnit alarm text scope checked slot start)
      (readUnit scope named slot start) fun readings => ∀ reading ∈ readings.whole,
        DerivesUnit rules scope.config slot start reading.stop reading.node := by
  have sound := readUnit_derives agree.sound several inside
  cases target : slot.target with
  | named type =>
    refine Agree.ensuring ?_ sound
    simp only [Checked.readUnit, readUnit, target, Checked.readNamed, readNamed]
    split
    next defined =>
      have found := (agree.same type start inside defined).ensuring (agree.sound type start inside)
      refine found.bind fun readings derived => ?_
      rw [inspect_eq small inside (fun reading member => ?whole) fun node member => ?cut]
      · exact .pure trivial
      case whole =>
        obtain ⟨found, listed, rfl⟩ := List.mem_map.mp member
        obtain ⟨-, items⟩ := derived found listed
        exact ⟨items.passes, _, _, _, rfl⟩
      case cut =>
        obtain ⟨_, _, rfl⟩ := List.mem_map.mp member
        exact ⟨_, _, _, rfl⟩
    next =>
      rw [expect_eq inside]
      exact .refl (.afterExpect (.pure trivial))
  | builtin type =>
    have numeric : type.accepts? = none := by simpa [target, Target.single?] using several
    simp only [Checked.readUnit, readUnit, target, readNumber_eq small inside slot numeric]
      at sound ⊢
    exact .refl sound
  | charClass set => simp [target, Target.single?] at several

theorem readSeparator_eq (small : Text.byteSize text ≤ Span.limit) (inside : start.In text)
    {count done : Nat} (same : done = 0 ↔ count = 0) :
    Checked.readSeparator alarm text scope count start = readSeparator scope done start := by
  rw [Checked.readSeparator, readSeparator]
  cases scope.config.repetition.separator? with
  | none => rfl
  | some separator => simp only [readLiteral_eq small inside, same]

theorem sharedCount_eq {quantifier : Quantifier} {count done : Nat}
    (counts : quantifier.Counts count done) : Checked.sharedCount quantifier count = done := by
  rw [Checked.sharedCount]
  cases known : quantifier.most with
  | some most =>
    simp only [Quantifier.Counts, known] at counts
    exact counts.1.symm
  | none =>
    simp only [Quantifier.Counts, known] at counts
    exact counts.symm

theorem least_le_iff_of_counts {quantifier : Quantifier} {count done : Nat}
    (counts : quantifier.Counts count done) : quantifier.least ≤ done ↔ quantifier.least ≤ count := by
  unfold Quantifier.Counts at counts
  split at counts <;> omega

variable (alarm) in
/-- However far the units are counted, they are not more than the bytes in front of the place. -/
theorem readRepeated_checked (small : Text.byteSize text ≤ Span.limit)
    (agree : NamedAgree rules text kept scope checked named) {slot : Placeholder}
    (several : slot.target.single? = none) (steps : Nat) {count done : Nat}
    (counts : slot.quantifier.Counts count done) (bound : count ≤ start.offset)
    (inside : start.In text) :
    AgreeWith kept
      (Checked.readRepeated alarm text scope (Checked.readUnit alarm text scope checked slot)
        slot.quantifier steps count start)
      (readRepeated scope (readUnit scope named slot) slot.quantifier steps done start)
      fun _ => True := by
  induction steps generalizing count done start with
  | zero => exact .pure trivial
  | succ steps ih =>
    rw [Checked.readRepeated, readRepeated, sharedCount_eq counts, ← allowsMore_of_counts counts,
      readSeparator_eq small inside (zero_iff_of_counts counts)]
    simp only [← least_le_iff_of_counts counts]
    refine AgreeWith.get.bind fun known _ => ?_
    cases known.lookup (start.offset, done) with
    | some chains => exact .pure trivial
    | none =>
      dsimp only
      simp only [pure_bind]
      split
      next more =>
        refine (AgreeWith.lift (.refl (readSeparator_openings done))).bind fun opening opened => ?_
        cases whole : opening.whole with
        | nil => exact (AgreeWith.modify _).bind fun _ _ => .pure trivial
        | cons first others =>
          have separator : Opening scope.config done start first.stop first.nodes := by
            rw [← mem_openings, ← opened, whole]
            exact List.mem_cons_self
          obtain ⟨_, before⟩ := separator.passes
          refine (AgreeWith.lift (readUnit_checked small agree several
            (inside.passes before))).bind fun units derived => ?_
          refine (AgreeWith.mapM fun found member => ?_).bind fun tails _ =>
            (AgreeWith.modify _).bind fun _ _ => .pure trivial
          obtain ⟨_, behind⟩ := (derived found member).passes
          have moved := before.trans behind
          split
          next => exact .pure trivial
          -- The counter goes up by one, and the offset by at least one.
          next moves =>
            have further := moved.offset_le
            have last := (inside.passes moved).offset_le
            have counts' := counts_next counts more
            rw [require_eq (by omega)]
            exact (ih counts' (by omega) (inside.passes moved)).bind fun rest _ => .pure trivial
      · exact (AgreeWith.modify _).bind fun _ _ => .pure trivial

theorem readRepetition_checked (small : Text.byteSize text ≤ Span.limit)
    (agree : NamedAgree rules text kept scope checked named) {slot : Placeholder}
    (several : slot.target.single? = none) (inside : start.In text) :
    Agree kept (Checked.readRepetition alarm text scope checked slot start)
      (readRepetition scope named slot start) fun _ => True := by
  rw [Checked.readRepetition, readRepetition]
  have repeated := readRepeated_checked alarm small agree several (start.rest.length + 1)
    (counts_zero _) (Nat.zero_le _) inside []
  refine (repeated.weaken fun _ _ => trivial).ensuring
    (readRepeated_derives agree.sound several inside) |>.bind fun result derived => ?_
  dsimp only
  rw [inspect_eq small inside (fun reading member => ?whole) fun node member => ?cut]
  · exact .pure trivial
  case whole =>
    obtain ⟨chain, listed, rfl⟩ := List.mem_map.mp member
    obtain ⟨_, -, units⟩ := derived chain listed
    exact ⟨units.passes, _, _, _, rfl⟩
  case cut =>
    obtain ⟨_, _, rfl⟩ := List.mem_map.mp member
    exact ⟨_, _, _, rfl⟩

theorem readPlaceholder_checked (small : Text.byteSize text ≤ Span.limit)
    (agree : NamedAgree rules text kept scope checked named) (slot : Placeholder)
    (inside : start.In text) :
    Agree kept (Checked.readPlaceholder alarm text scope checked slot start)
      (readPlaceholder scope named slot start) fun _ => True := by
  have units (several : slot.target.single? = none) : Agree kept
      (if slot.quantifier = .one then Checked.readUnit alarm text scope checked slot start
        else Checked.readRepetition alarm text scope checked slot start)
      (if slot.quantifier = .one then readUnit scope named slot start
        else readRepetition scope named slot start) fun _ => True := by
    split
    · exact (readUnit_checked small agree several inside).weaken fun _ _ => trivial
    · exact readRepetition_checked small agree several inside
  cases target : slot.target with
  | charClass set =>
    simp only [Checked.readPlaceholder, readPlaceholder, target, readRun_eq small inside]
    exact .refl ((readRun_words _ _ _ _).weaken fun _ _ => trivial)
  | builtin type =>
    cases single : type.accepts? with
    | some accepts =>
      simp only [Checked.readPlaceholder, readPlaceholder, target, single,
        readRun_eq small inside]
      exact .refl ((readRun_words _ _ _ _).weaken fun _ _ => trivial)
    | none =>
      simp only [Checked.readPlaceholder, readPlaceholder, target, single]
      exact units (by rw [target]; exact single)
  | named type =>
    simp only [Checked.readPlaceholder, readPlaceholder, target]
    exact units (by rw [target]; rfl)

theorem readItem_checked (small : Text.byteSize text ≤ Span.limit)
    (agree : NamedAgree rules text kept scope checked named) (item : Item)
    (inside : start.In text) :
    Agree kept (Checked.readItem alarm text scope checked item start)
      (readItem scope named item start) fun readings => ∀ reading ∈ readings.whole,
        DerivesItem rules scope.config item start reading.stop reading.node := by
  refine Agree.ensuring ?_ (readItem_derives agree.sound item inside)
  cases item with
  | literal literal span =>
    simp only [Checked.readItem, readItem, visit_eq inside, pure_bind, readLiteral_eq small inside]
    exact .refl ((readLiteral_words literal).weaken fun _ _ => trivial)
  | placeholder slot =>
    simp only [Checked.readItem, readItem, visit_eq inside, pure_bind]
    exact readPlaceholder_checked small agree slot inside

theorem readItems_checked (small : Text.byteSize text ≤ Span.limit)
    (agree : NamedAgree rules text kept scope checked named) (items : List Item)
    {chains : List (Chain ε κ)} (inside : ∀ chain ∈ chains, chain.stop.In text) :
    Agree kept (Checked.readItems alarm text scope checked items chains)
      (readItems scope named items chains) fun _ => True := by
  induction items generalizing chains with
  | nil => exact .pure trivial
  | cons item rest ih =>
    rw [Checked.readItems, readItems]
    refine (Agree.mapM (fun chain found => found.1 = chain ∧ ∀ reading ∈ found.2.whole,
        DerivesItem rules scope.config item chain.stop reading.stop reading.node)
      fun chain member => ?_).bind fun found related => ?_
    · refine (readItem_checked small agree item (inside chain member)).bind
        fun readings derived => ?_
      exact .pure ⟨rfl, derived⟩
    · refine (ih fun chain member => ?_).bind fun _ _ => .pure trivial
      obtain ⟨before, earlier, after, ⟨-, derived⟩, reading, read, rfl⟩ :=
        exists_before related (fun _ _ holds => holds.1) member
      obtain ⟨_, passes⟩ := (derived reading read).passes
      exact (inside _ earlier).passes passes

theorem readAlternatives_checked (small : Text.byteSize text ≤ Span.limit)
    (agree : NamedAgree rules text kept scope checked named)
    (alternatives : List (Alternative ε κ)) (inside : start.In text) :
    Agree kept (Checked.readAlternatives alarm text scope checked alternatives start)
      (readAlternatives scope named alternatives start) fun readings =>
        ∀ reading ∈ readings.whole, DerivesOneOf rules scope.config alternatives start reading := by
  refine Agree.ensuring ?_ (readAlternatives_derives agree.sound alternatives inside)
  refine (Agree.mapM (fun _ _ => True) fun alternative _ => ?_).bind fun _ _ => .pure trivial
  exact (readItems_checked small agree _ (by simpa using inside)).bind fun _ _ => .pure trivial

variable (alarm) in
theorem readType_checked (small : Text.byteSize text ≤ Span.limit) (levels : Nat)
    (scope : Scope ε κ) :
    NamedAgree scope.registry.alternatives text (Derived scope text) scope
      (Checked.readType alarm text levels) (readType levels) := by
  refine ⟨readType_derives text levels scope, ?_⟩
  induction levels generalizing scope with
  | zero => exact fun _ _ _ _ => .pure trivial
  | succ levels ih =>
    intro name place inside _
    rw [Checked.readType, readType]
    refine (Agree.refl (Ensures.lookUp name place)).bind fun found _ => ?_
    cases found with
    | some known => exact .pure trivial
    | none =>
      dsimp only
      split
      · exact .pure trivial
      · let inner := { scope with active := scope.active ++ [(name, place.offset)] }
        have agree := NamedAgree.mk (readType_derives text levels inner) (ih inner)
        refine (readAlternatives_checked small agree _ inside).bind fun readings derived => ?_
        refine Agree.bind (.refl (Ensures.remember fun other inside' same => ?_))
          fun _ _ => .pure trivial
        obtain rfl := inside'.eq_of_offset inside same
        exact derived

/-! ### Scripts -/

theorem inspectGap_eq (small : Text.byteSize text ≤ Span.limit) (inside : start.In text) :
    Checked.inspectGap alarm text start = pure () := by
  have passes := Cursor.passes_skipWhile Text.isBlank start
  rw [Checked.inspectGap, visit_eq inside, pure_bind]
  dsimp only [readGap]
  rw [visit_eq (inside.passes passes), pure_bind]
  refine forM_eq fun node member => require_eq ?_
  split at member
  · cases member
  · obtain rfl := List.mem_singleton.mp member
    exact Node.displays_covering small inside passes

theorem extend_eq (small : Text.byteSize text ≤ Span.limit) {step : Step ε κ}
    {found : TypeReading ε κ} (inside : step.stop.In text)
    (passes : step.stop.Passes word found.stop) :
    Checked.extend alarm text step found = pure (step.extend found) := by
  rw [Checked.extend, inspectGap_eq small (inside.passes passes), pure_bind]
  dsimp only
  rw [require_eq (Node.displays_covering small inside passes), pure_bind]

theorem mapM_eq {α β : Type} {list : List α} {search : α → Search ε κ β}
    (result : α → β) (each : ∀ a ∈ list, search a = pure (result a)) :
    list.mapM search = pure (list.map result) := by
  induction list with
  | nil => rfl
  | cons a rest ih =>
    rw [List.mapM_cons, each a List.mem_cons_self, pure_bind,
      ih fun a member => each a (List.mem_cons_of_mem _ member), pure_bind, List.map_cons]

theorem advance_checked (small : Text.byteSize text ≤ Span.limit)
    (agree : NamedAgree scope.registry.alternatives text kept scope checked named) {first : Bool}
    {step : Step ε κ} (reached : Reached scope text first step)
    (further : first = true ∨ scope.config.severalSentences = true) :
    Agree kept (Checked.advance alarm text scope checked first step)
      (advance scope named first step)
      fun found => ∀ step ∈ found.1, Reached scope text false step := by
  refine Agree.ensuring ?_ (advance_reaches agree.sound reached further)
  have inside := reached.inside
  have sentences : Agree kept
      (Checked.readAlternatives alarm text scope checked scope.registry.sentences step.stop)
      (readAlternatives scope named scope.registry.sentences step.stop) _ :=
    readAlternatives_checked small agree scope.registry.sentences inside
  have behind : Agree kept
      (do
        Checked.visit alarm text step.stop
        let readings ←
          Checked.readAlternatives alarm text scope checked scope.registry.sentences step.stop
        let steps ← readings.whole.mapM (Checked.extend alarm text step)
        let cut ← readings.cut.mapM fun cut => do
          let sentence : Node ε κ := .cutOff step.stop none (.alternative cut.1) cut.2
          Checked.require alarm (sentence.Displays text)
          return step.nodes ++ [sentence]
        return (steps, cut))
      (do
        let readings ← readAlternatives scope named scope.registry.sentences step.stop
        return (readings.whole.map step.extend, readings.cut.map fun cut =>
          step.nodes ++ [.cutOff step.stop none (.alternative cut.1) cut.2])) fun _ => True := by
    rw [visit_eq inside, pure_bind]
    refine sentences.bind fun readings derived => ?_
    rw [mapM_eq step.extend, pure_bind, mapM_eq, pure_bind]
    · exact .pure trivial
    · intro cut listed
      dsimp only
      rw [require_eq (Node.displays_cutOff small inside), pure_bind]
    · intro found listed
      obtain ⟨-, items⟩ := derived found listed
      obtain ⟨_, passes⟩ := items.passes
      exact extend_eq small inside passes
  rw [Checked.advance, advance, expect_eq inside, expect_eq inside]
  dsimp only
  split
  · split
    · exact (Agree.refl (.expect _ _ _)).bind fun _ _ => behind
    · exact behind
  · exact .refl (.perhapsExpect fun _ => .pure trivial)

variable (alarm) in
theorem rounds_checked (small : Text.byteSize text ≤ Span.limit)
    (agree : NamedAgree scope.registry.alternatives text kept scope checked named) (left : Nat)
    (first : Bool) (seen : List Nat) (frontier : List (Step ε κ)) (readings : ScriptReadings ε κ)
    (reached : ∀ step ∈ frontier, Reached scope text first step) :
    Agree kept (Checked.rounds alarm text scope checked left first seen frontier readings)
      (rounds scope named left first seen frontier readings) fun _ => True := by
  induction left generalizing first seen frontier readings with
  | zero => exact .pure trivial
  | succ left ih =>
    unfold Checked.rounds rounds
    extract_lets whole finish whole' finish'
    have same : whole' = whole := rfl
    clear_value whole'
    subst same
    by_cases done : whole.isSome = true ∧ ¬scope.completing = true
    · simp only [if_pos done]
      exact .pure trivial
    · by_cases closing : frontier.isEmpty = true ∨
        ¬(first = true ∨ scope.config.severalSentences = true)
      · simp only [if_neg done, if_pos closing]
        -- The places where the end was expected are places of the text.
        have noted : (frontier.forM fun step =>
            Checked.expect alarm text scope step.stop .endOfInput) =
              frontier.forM fun step => expect scope step.stop .endOfInput :=
          forM_congr fun step member => expect_eq (reached step member).inside _
        simp only [noted]
        split
        · exact .refl (Ensures.bind (.forM fun _ _ => .expect _ _ _) fun _ _ => .pure trivial)
        · exact .pure trivial
      · simp only [if_neg done, if_neg closing]
        have further := Decidable.not_not.mp (not_or.mp closing).2
        refine (Agree.mapM (fun _ found => ∀ step ∈ found.1, Reached scope text false step)
          fun step member => advance_checked small agree (reached step member) further).bind
            fun found related => ih _ _ _ _ fun step kept => ?_
        obtain ⟨_, _, _, reaches, taken⟩ := exists_taken related kept
        exact reaches step taken

variable (alarm) in
theorem inspectScript_eq (small : Text.byteSize text ≤ Span.limit) (inside : start.In text)
    {readings : ScriptReadings ε κ} {progress : Progress ε κ}
    (failed : readings.whole = none → progress.failure.place.In text) :
    (Checked.inspectScript alarm text start readings).run progress = (readings, progress) := by
  rw [Checked.inspectScript,
    forM_eq fun nodes _ => require_eq (Node.displays_covering small inside start.passes_finish),
    pure_bind, forM_eq fun nodes _ => require_eq (Node.displays_cutOff small inside), pure_bind]
  cases whole : readings.whole with
  | some nodes => rfl
  | none =>
    rw [Option.isNone_none, if_pos rfl, run_bind]
    exact congrArg (fun check : Search ε κ Unit => (check >>= fun _ => pure readings).run progress)
      (visit_eq (failed whole))

/-- In a text of less than `2 ^ 32` bytes, no check fails, whatever the grammar is and whether or not
completions are wanted: everything that is cut out of the text or of a literal can be cut out of it,
every span goes forwards and shows the text of its node, numbers are read as far by their bytes as by
their characters, and every counter fits into 32 bits. -/
theorem search_stays_within (registry : Registry ε κ) (config : Config) (completing : Bool)
    (text : String) (small : Text.byteSize text.toList < 2 ^ 32) (alarm : Search ε κ Unit) :
    (Checked.readScript alarm text.toList { registry, config, completing } (Cursor.ofText text)).run
        { failure := { place := Cursor.ofText text } } =
      (readScript { registry, config, completing } (Cursor.ofText text)).run
        { failure := { place := Cursor.ofText text } } := by
  have limit : Text.byteSize text.toList ≤ Span.limit := by
    unfold Span.limit
    omega
  have inside : (Cursor.ofText text).In text.toList := Cursor.in_start _
  have begins : ∀ step ∈ [firstStep ε κ text.toList],
      Reached { registry, config, completing } text.toList true step := by
    intro step member
    exact List.mem_singleton.mp member ▸ firstStep_reached
  have searched := (rounds_checked alarm limit
    (readType_checked alarm limit (levelsFor registry text.toList)
      { registry, config, completing })
    (Text.byteSize text.toList + 2) true [(firstStep ε κ text.toList).stop.offset] _ {} begins
    { failure := { place := Cursor.ofText text } } (by simp [Derived])).1
  rw [Checked.readScript, inspectGap_eq limit inside, pure_bind]
  have last := inspectScript_eq alarm limit inside
    (failure_inside registry config completing text.toList)
  have checked := congrArg (fun run => (Checked.inspectScript alarm text.toList
    (Cursor.ofText text) run.1).run run.2) searched
  exact (run_bind _ _ _).trans (checked.trans last)

/-- A literal with a character of two bytes in front of repeated numbers. -/
def sizes : Registry Empty Empty :=
  .ofItems [] [[.literal "größe " ⟨0, 0⟩,
    .placeholder ⟨"x", .builtin .float, .oneOrMore, ⟨0, 0⟩⟩]]

theorem search_stays_within_sizes :
    Text.byteSize "größe 1e+é".toList < 2 ^ 32 ∧ ∀ alarm : Search Empty Empty Unit,
      (Checked.readScript alarm "größe 1e+é".toList ⟨sizes, {}, true, []⟩
          (Cursor.ofText "größe 1e+é")).run { failure := { place := Cursor.ofText "größe 1e+é" } } =
        (readScript ⟨sizes, {}, true, []⟩ (Cursor.ofText "größe 1e+é")).run
          { failure := { place := Cursor.ofText "größe 1e+é" } } :=
  ⟨by decide, search_stays_within sizes {} true "größe 1e+é" (by decide)⟩

end Matching
end SentenceGrammar
