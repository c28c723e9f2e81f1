import SentenceGrammar.Proofs.LongerText
import SentenceGrammar.Proofs.ScriptSoundness

/-!
# What the end of the text cuts off

A search for completions keeps what the end of the text cuts off, and it notes a failure at the end
of the text. Both happen in the same places: whatever is cut off is noted there, and whatever is
noted there was cut off, unless it is a type that is not defined. So if one looks for something, be
it anything at all or the rest of some literal, then it is expected at the end just if some nodes
that are cut off show it.
-/
namespace SentenceGrammar.Matching

variable {ε κ α β : Type}

/-! ### Where scans get to -/

theorem scanLiteral_ended {literal missing : List Char} {start : Cursor}
    (ended : scanLiteral literal start = .ended missing) :
    missing ≠ [] ∧ literal = start.rest ++ missing := by
  induction literal generalizing start with
  | nil => simp [scanLiteral] at ended
  | cons c more ih =>
    rw [scanLiteral] at ended
    split at ended
    next known =>
      obtain rfl := LiteralScan.ended.inj ended
      exact ⟨List.cons_ne_nil _ _, by rw [known, List.nil_append]⟩
    next d rest known =>
      split at ended
      next same =>
        obtain ⟨some, parts⟩ := ih ended
        refine ⟨some, ?_⟩
        rw [known, same, List.cons_append, parts]
        rfl
      · cases ended

/-- Up to where it differs, the text goes on with the literal. -/
theorem scanLiteral_differs {literal missing : List Char} {start place : Cursor}
    (differs : scanLiteral literal start = .differs place missing) :
    place.rest ≠ [] ∧ ∃ word, start.Passes word place ∧ literal = word ++ missing := by
  induction literal generalizing start with
  | nil => simp [scanLiteral] at differs
  | cons c more ih =>
    rw [scanLiteral] at differs
    split at differs
    · cases differs
    next d rest known =>
      split at differs
      next same =>
        obtain ⟨going, word, passes, parts⟩ := ih differs
        refine ⟨going, d :: word, (Cursor.passes_past (known.trans rfl)).trans passes, ?_⟩
        rw [same, parts, List.cons_append]
      next =>
        obtain ⟨rfl, rfl⟩ := LiteralScan.differs.inj differs
        exact ⟨by simp [known], [], .refl _, rfl⟩

private theorem passes_next {offset : Nat} {c : Char} {rest : List Char} :
    Cursor.Passes ⟨offset, c :: rest⟩ [c] ⟨offset + c.utf8Size, rest⟩ :=
  Cursor.passes_past rfl

theorem scanRun_reaches (quantifier : Quantifier) (accepts : Char → Bool) (stops : List Cursor)
    (done offset : Nat) (rest : List Char) :
    ∃ word, Cursor.Passes ⟨offset, rest⟩ word
      (scanRun quantifier accepts stops done offset rest).1.reached := by
  induction rest generalizing stops done offset with
  | nil => exact ⟨[], .refl _⟩
  | cons c rest ih =>
    rw [scanRun]
    split
    · obtain ⟨_, passes⟩ := ih _ _ _
      exact ⟨_, passes_next.trans passes⟩
    · exact ⟨[], .refl _⟩

theorem scanDigits_reaches (stops : List Cursor) (offset : Nat) (rest : List Char) :
    ∃ word, Cursor.Passes ⟨offset, rest⟩ word (scanDigits stops offset rest).reached := by
  induction rest generalizing stops offset with
  | nil => exact ⟨[], .refl _⟩
  | cons c rest ih =>
    rw [scanDigits]
    split
    · obtain ⟨_, passes⟩ := ih _ _
      exact ⟨_, passes_next.trans passes⟩
    · exact ⟨[], .refl _⟩

theorem skipOne_reaches (chars : List Char) (start : Cursor) :
    ∃ word, start.Passes word (skipOne chars start) := by
  rw [skipOne]
  split
  next c rest known =>
    split
    · exact ⟨_, Cursor.passes_past known⟩
    · exact ⟨[], .refl _⟩
  · exact ⟨[], .refl _⟩

theorem scanWhole_reaches (start : Cursor) :
    ∃ word, start.Passes word (scanWhole start).reached := by
  obtain ⟨_, sign⟩ := skipOne_reaches ['+', '-'] start
  obtain ⟨_, digits⟩ := scanDigits_reaches [] _ _
  exact ⟨_, sign.trans digits⟩

theorem scanPlaces_reaches (scan : Scan) :
    ∃ word, scan.reached.Passes word (scanPlaces scan).reached := by
  rw [scanPlaces]
  split
  next rest known =>
    obtain ⟨_, passes⟩ := scanDigits_reaches _ _ rest
    exact ⟨_, (Cursor.passes_past known).trans passes⟩
  · exact ⟨[], .refl _⟩

theorem scanExponent_reaches (scan : Scan) :
    ∃ word, scan.reached.Passes word (scanExponent scan).reached := by
  rw [scanExponent]
  dsimp only
  split
  · exact ⟨[], .refl _⟩
  · obtain ⟨_, mark⟩ := skipOne_reaches ['e', 'E'] scan.reached
    obtain ⟨_, sign⟩ := skipOne_reaches ['+', '-'] (skipOne ['e', 'E'] scan.reached)
    obtain ⟨_, digits⟩ := scanDigits_reaches scan.stops _ _
    exact ⟨_, (mark.trans sign).trans digits⟩

theorem scanNumber_reaches (isFloat : Bool) (start : Cursor) :
    ∃ word, start.Passes word (scanNumber isFloat start).reached := by
  obtain ⟨_, whole⟩ := scanWhole_reaches start
  cases isFloat with
  | false => exact ⟨_, whole⟩
  | true =>
    obtain ⟨_, places⟩ := scanPlaces_reaches (scanWhole start)
    obtain ⟨_, exponent⟩ := scanExponent_reaches (scanPlaces (scanWhole start))
    exact ⟨_, (whole.trans places).trans exponent⟩

/-! ### The end of the text -/

variable {text : List Char} {failure : Failure} {context : List String} {place : Cursor}
  {expected : Expected} {wanted : Expected → Prop}

theorem Failure.note_expected : (failure.note context place expected).expected ≠ [] := by
  rw [note]
  split
  next => exact List.cons_ne_nil _ _
  next further =>
    split
    · exact List.append_ne_nil_of_right_ne_nil _ (List.cons_ne_nil _ _)
    · exact (not_or.mp further).2

theorem Failure.note_inside (inside : failure.place.In text) (noted : place.In text) :
    (failure.note context place expected).place.In text := by
  rw [note]
  split
  · exact noted
  · split <;> exact inside

/-- Something that is wanted is expected at the end of the text. -/
def Failure.Tells (wanted : Expected → Prop) (failure : Failure) : Prop :=
  failure.place.rest = [] ∧ ∃ expected ∈ failure.expected, wanted expected

/-- What is noted at the end is told. -/
theorem Failure.tells_note (inside : failure.place.In text) (noted : place.In text)
    (ended : place.rest = []) (meant : wanted expected) :
    (failure.note context place expected).Tells wanted := by
  have last := noted.rest_eq_nil_iff.mp ended
  have bound := inside.offset_le
  rw [note]
  split
  next => exact ⟨ended, expected, List.mem_singleton_self _, meant⟩
  next further =>
    rw [not_or] at further
    have atEnd : failure.place.rest = [] := inside.rest_eq_nil_iff.mpr (by omega)
    split
    · exact ⟨atEnd, expected, by simp, meant⟩
    next known =>
      have listed : expected ∈ failure.expected := by
        by_contra new
        exact known ⟨by omega, new⟩
      exact ⟨atEnd, expected, listed, meant⟩

/-- What was told stays told. -/
theorem Failure.Tells.note (tells : failure.Tells wanted) (inside : failure.place.In text)
    (noted : place.In text) : (failure.note context place expected).Tells wanted := by
  obtain ⟨ended, told, listed, meant⟩ := tells
  have last := inside.rest_eq_nil_iff.mp ended
  have bound := noted.offset_le
  rw [Failure.note]
  split
  next further =>
    rcases further with less | nothing
    · omega
    · rw [nothing] at listed
      cases listed
  next =>
    split
    · exact ⟨ended, told, List.mem_append_left _ listed, meant⟩
    · exact ⟨ended, told, listed, meant⟩

/-- Nothing else is told. -/
theorem Failure.tells_of_note (inside : failure.place.In text) (noted : place.In text)
    (tells : (failure.note context place expected).Tells wanted) :
    failure.Tells wanted ∨ place.rest = [] ∧ wanted expected := by
  rw [Failure.note] at tells
  split at tells
  next =>
    obtain ⟨ended, told, listed, meant⟩ := tells
    obtain rfl := List.mem_singleton.mp listed
    exact .inr ⟨ended, meant⟩
  next =>
    split at tells
    next same =>
      obtain ⟨ended, told, listed, meant⟩ := tells
      rcases List.mem_append.mp listed with before | now
      · exact .inl ⟨ended, told, before, meant⟩
      · obtain rfl := List.mem_singleton.mp now
        have last := inside.rest_eq_nil_iff.mp ended
        exact .inr ⟨noted.rest_eq_nil_iff.mpr (same.1.trans last), meant⟩
    next => exact .inl tells

/-! ### Marking what is cut off -/

/-- Something to look for at the end of the text: what it is among all that is expected there, and
what shows it among the nodes that are cut off there. Only the leaf that is cut off matters, not the
complete nodes in front of it, nor the nodes around it. -/
structure Sign (ε κ : Type) where
  wanted : Expected → Prop
  sought : List (Node ε κ) → Prop
  behind : ∀ {front nodes : List (Node ε κ)}, (∀ node ∈ front, node.Finished) →
    (sought (front ++ nodes) ↔ sought nodes)
  around : ∀ {start : Cursor} {name : Option String} {kind : NodeKind ε κ} {nodes},
    (∀ text, kind ≠ .literal text) → (sought [.cutOff start name kind nodes] ↔ sought nodes)
  literal : ∀ {start : Cursor} {text : String} {missing : List Char},
    text.toList = start.rest ++ missing →
      (sought [.cutOff start none (.literal text) []] ↔ wanted (.literal (String.ofList missing)))
  characters : ∀ {start : Cursor} {name : Option String} {kind : NodeKind ε κ} {expected},
    (∀ text, kind ≠ .literal text) → (∀ text, expected ≠ .literal text) →
      (sought [.cutOff start name kind []] ↔ wanted expected)

/-- Anything at all. -/
def Sign.anything : Sign ε κ where
  wanted _ := True
  sought _ := True
  behind _ := Iff.rfl
  around _ := Iff.rfl
  literal _ := Iff.rfl
  characters _ _ := Iff.rfl

/-- What a search for completions knows. -/
def completions (registry : Registry ε κ) (config : Config) (active : List (String × Nat)) :
    Scope ε κ :=
  ⟨registry, config, true, active⟩

variable {sign : Sign ε κ} {registry : Registry ε κ} {config : Config}
  {active : List (String × Nat)}

variable (text sign registry config) in
/-- What is remembered derives, and if any of what was cut off shows the sign, then that is noted. -/
structure Marked (progress : Progress ε κ) : Prop where
  derived : Derived (completions registry config []) text progress.known
  inside : progress.failure.place.In text
  fresh : progress.failure.expected = [] → progress.failure.place.offset = 0
  cut : ∀ entry ∈ progress.known, (∃ cut ∈ entry.2.cut, sign.sought cut.2) →
    progress.failure.Tells sign.wanted

variable (text sign registry config) in
/-- In the meantime the sign was cut off, if `loud` says so, or else it was not noted. -/
structure Moves (loud : Prop) (before after : Progress ε κ) : Prop where
  marked : Marked text sign registry config after
  stays : before.failure.Tells sign.wanted → after.failure.Tells sign.wanted
  marks : loud → after.failure.Tells sign.wanted
  heard : registry.undefinedReferences = [] → after.failure.Tells sign.wanted →
    before.failure.Tells sign.wanted ∨ loud

variable (text sign registry config) in
/-- If `early` entails that the sign was noted before, then the search notes it just if its result
is `loud`, that is, if the sign is cut off. -/
def Marks (early : Prop) (loud : α → Prop) (search : Search ε κ α) (post : α → Prop) : Prop :=
  ∀ progress, Marked text sign registry config progress →
    (early → progress.failure.Tells sign.wanted) →
      post (search.run progress).1 ∧
        Moves text sign registry config (loud (search.run progress).1) progress
          (search.run progress).2

theorem Marked.note {progress : Progress ε κ} (marked : Marked text sign registry config progress)
    (inside : place.In text) :
    Marked text sign registry config
      { progress with failure := progress.failure.note context place expected } :=
  ⟨marked.derived, Failure.note_inside marked.inside inside,
    fun nothing => absurd nothing Failure.note_expected,
    fun entry member cut => (marked.cut entry member cut).note marked.inside inside⟩

namespace Marks

variable {early : Prop} {loud : β → Prop} {post : β → Prop}

theorem pure {result : β} (noted : loud result → early) (holds : post result) :
    Marks text sign registry config early loud (Pure.pure result) post :=
  fun _ marked known => ⟨holds, marked, id, fun cut => known (noted cut), fun _ => .inl⟩

/-- What the first part cuts off is among what is cut off in the end. -/
theorem bind {search : Search ε κ α} {next : α → Search ε κ β} {loud' : α → Prop}
    {middle : α → Prop} (first : Marks text sign registry config early loud' search middle)
    (kept : ∀ a progress, middle a → loud' a → loud ((next a).run progress).1)
    (further : ∀ a, middle a → Marks text sign registry config (early ∨ loud' a) loud (next a) post) :
    Marks text sign registry config early loud (search >>= next) post := by
  intro progress marked known
  obtain ⟨reached, moved⟩ := first progress marked known
  obtain ⟨result, moved'⟩ := further _ reached _ moved.marked
    fun noted => noted.elim (fun early => moved.stays (known early)) moved.marks
  refine ⟨result, moved'.marked, moved'.stays ∘ moved.stays, moved'.marks, fun defined told => ?_⟩
  rcases moved'.heard defined told with there | cut
  · exact (moved.heard defined there).imp_right (kept _ _ reached)
  · exact .inr cut

/-- The result is made of the result of another search, and shows the sign just if that does. -/
theorem map {search : Search ε κ α} {loud' : α → Prop} {middle : α → Prop} {f : α → β}
    (first : Marks text sign registry config early loud' search middle)
    (same : ∀ a, middle a → (loud (f a) ↔ loud' a)) (holds : ∀ a, middle a → post (f a)) :
    Marks text sign registry config early loud (search >>= fun a => Pure.pure (f a)) post := by
  intro progress marked known
  obtain ⟨reached, moved⟩ := first progress marked known
  have iff := same _ reached
  exact ⟨holds _ reached, moved.marked, moved.stays, moved.marks ∘ iff.mp,
    fun defined told => (moved.heard defined told).imp_right iff.mpr⟩

theorem expect (inside : place.In text) (expected : Expected) :
    Marks text sign registry config early (fun _ => place.rest = [] ∧ sign.wanted expected)
      (expect (completions registry config active) place expected) fun _ => True := by
  intro progress marked _
  refine ⟨trivial, marked.note inside, fun told => told.note marked.inside inside,
    fun meant => Failure.tells_note marked.inside inside meant.1 meant.2, fun _ told => ?_⟩
  exact Failure.tells_of_note marked.inside inside told

/-- A type that is not defined may be noted without anything being cut off. -/
theorem expectUndefined (inside : place.In text) (undefined : registry.undefinedReferences ≠ []) :
    Marks text sign registry config early (fun _ => False)
      (Matching.expect (completions registry config active) place expected) fun _ => True :=
  fun _ marked _ => ⟨trivial, marked.note inside,
    fun told => told.note marked.inside inside, False.elim,
    fun defined => absurd defined undefined⟩

theorem ensuring {search : Search ε κ β} {strong : β → Prop}
    (marks : Marks text sign registry config early loud search post)
    (ensured : Ensures (Derived (completions registry config []) text) search strong) :
    Marks text sign registry config early loud search fun result => post result ∧ strong result := by
  intro progress marked known
  obtain ⟨holds, moved⟩ := marks progress marked known
  exact ⟨⟨holds, (ensured progress marked.derived).1⟩, moved⟩

theorem mapM (loud : β → Prop) (post : α → β → Prop) {list : List α} {search : α → Search ε κ β}
    (each : ∀ a ∈ list, ∀ early, Marks text sign registry config early loud (search a) (post a)) :
    Marks text sign registry config early (fun results => ∃ result ∈ results, loud result)
      (list.mapM search) (List.Forall₂ post list) := by
  induction list generalizing early with
  | nil => exact .pure (by simp) .nil
  | cons a rest ih =>
    rw [List.mapM_cons]
    refine (each a List.mem_cons_self early).bind
      (fun result _ _ cut => ⟨result, List.mem_cons_self, cut⟩) fun result first => ?_
    refine (ih fun a member => each a (List.mem_cons_of_mem _ member)).bind
      (fun results _ _ ⟨other, member, cut⟩ => ⟨other, List.mem_cons_of_mem _ member, cut⟩)
      fun results others => .pure ?_ (.cons first others)
    rintro ⟨other, member, cut⟩
    rcases List.mem_cons.mp member with rfl | member
    · exact .inl (.inr cut)
    · exact .inr ⟨other, member, cut⟩

end Marks

/-! ### Terminals -/

variable {start : Cursor} {early : Prop}

theorem readLiteral_marks (inside : start.In text) (literal : String) :
    Marks text sign registry config early
      (fun readings => ∃ node ∈ readings.cut, sign.sought [node])
      (readLiteral (completions registry config active) literal start) fun _ => True := by
  rw [readLiteral]
  cases scanned : scanLiteral literal.toList start with
  | whole stop => exact .pure (by simp) trivial
  | ended missing =>
    obtain ⟨-, parts⟩ := scanLiteral_ended scanned
    refine (Marks.expect (inside.passes start.passes_finish) _).bind
      (fun _ _ _ meant => ⟨_, List.mem_singleton_self _, (sign.literal parts).mpr meant.2⟩)
      fun _ _ => .pure ?_ trivial
    rintro ⟨node, member, shown⟩
    obtain rfl := List.mem_singleton.mp member
    exact .inr ⟨rfl, (sign.literal parts).mp shown⟩
  | differs place missing =>
    obtain ⟨going, _, passes, -⟩ := scanLiteral_differs scanned
    exact (Marks.expect (inside.passes passes) _).bind (fun _ _ _ meant => absurd meant.1 going)
      fun _ _ => .pure (by simp) trivial

theorem exists_kept {condition : Prop} [Decidable condition] {leaf : Node ε κ}
    {shown : Node ε κ → Prop} :
    (∃ node ∈ (if condition then (completions registry config active).keep leaf else []),
      shown node) ↔ condition ∧ shown leaf := by
  split <;> simp_all [completions, Scope.keep]

theorem readRun_marks (inside : start.In text) (slot : Placeholder) (accepts : Char → Bool)
    {expected : Expected} {kind : NodeKind ε κ} (other : ∀ text, expected ≠ .literal text)
    (plain : ∀ text, kind ≠ .literal text) :
    Marks text sign registry config early
      (fun readings => ∃ node ∈ readings.cut, sign.sought [node])
      (readRun (completions registry config active) slot accepts expected kind start)
      fun _ => True := by
  obtain ⟨_, passes⟩ := scanRun_reaches slot.quantifier accepts [] 0 start.offset start.rest
  have leaf : sign.sought [.cutOff start (some slot.name) kind []] ↔ sign.wanted expected :=
    sign.characters plain other
  rw [readRun]
  cases scanned : scanRun slot.quantifier accepts [] 0 start.offset start.rest with
  | mk scan extendable =>
    rw [scanned] at passes
    have reached : scan.reached.In text := inside.passes passes
    dsimp only
    split
    next further =>
      refine (Marks.expect reached expected).bind
        (fun _ _ _ meant => exists_kept.mpr ⟨⟨further, meant.1⟩, leaf.mpr meant.2⟩)
        fun _ _ => .pure (fun cut => ?_) trivial
      obtain ⟨⟨-, ended⟩, shown⟩ := exists_kept.mp cut
      exact .inr ⟨ended, leaf.mp shown⟩
    next full => exact .pure (fun cut => absurd (exists_kept.mp cut).1.1 full) trivial

theorem readNumber_marks (inside : start.In text) (slot : Placeholder) (type : Builtin) :
    Marks text sign registry config early
      (fun readings => ∃ node ∈ readings.cut, sign.sought [node])
      (readNumber (completions registry config active) slot type start) fun _ => True := by
  obtain ⟨_, passes⟩ := scanNumber_reaches (type = .float) start
  have reached := inside.passes passes
  have leaf : sign.sought [.cutOff start (some slot.name) (.builtin type) []] ↔
      sign.wanted (.builtin type) := sign.characters (by simp) (by simp)
  rw [readNumber]
  dsimp only
  split
  next noted =>
    refine (Marks.expect reached (.builtin type)).bind
      (fun _ _ _ meant => exists_kept.mpr ⟨meant.1, leaf.mpr meant.2⟩)
      fun _ _ => .pure (fun cut => ?_) trivial
    obtain ⟨ended, shown⟩ := exists_kept.mp cut
    exact .inr ⟨ended, leaf.mp shown⟩
  next silent =>
    exact .pure (fun cut => absurd (.inr (exists_kept.mp cut).1) silent) trivial

/-! ### Items -/

/-- The type of the placeholder, if it has one, is defined. -/
def Refers (registry : Registry ε κ) (slot : Placeholder) : Prop :=
  ∀ name, slot.target = .named name → registry.containsType name = true

theorem refers_of_mem (defined : registry.undefinedReferences = []) {chosen : Alternative ε κ}
    (registered : chosen ∈ registry.allAlternatives) {slot : Placeholder}
    (member : Item.placeholder slot ∈ chosen.pattern.items) : Refers registry slot := by
  intro name target
  by_contra undefined
  have listed : slot ∈ chosen.pattern.placeholders := List.mem_filterMap.mpr ⟨_, member, rfl⟩
  have none := List.filterMap_eq_nil_iff.mp (List.flatMap_eq_nil_iff.mp defined chosen registered)
    slot listed
  simp [target, undefined] at none

variable (text sign registry config) in
/-- Wherever a type is read, the sign is noted just if it is cut off. -/
structure NamedMarks (active : List (String × Nat)) (named : TypeReader ε κ) : Prop where
  sound : NamedSound registry.alternatives text (Derived (completions registry config []) text)
    (completions registry config active) named
  marks : ∀ name (place : Cursor), place.In text → ∀ early,
    Marks text sign registry config early
      (fun readings => ∃ cut ∈ readings.cut, sign.sought cut.2)
      (named (completions registry config active) name place) fun _ => True

variable {named : TypeReader ε κ}

theorem readUnit_marks (marks : NamedMarks text sign registry config active named)
    {slot : Placeholder} (refers : registry.undefinedReferences = [] → Refers registry slot)
    (inside : start.In text) :
    Marks text sign registry config early
      (fun readings => ∃ node ∈ readings.cut, sign.sought [node])
      (readUnit (completions registry config active) named slot start) fun _ => True := by
  rw [readUnit]
  split
  · exact readNumber_marks inside slot _
  next type target =>
    rw [readNamed]
    split
    · refine (marks.marks type start inside _).map (fun readings _ => ?_) fun _ _ => trivial
      simp only [List.mem_map, Prod.exists]
      constructor
      · rintro ⟨node, ⟨chosen, children, listed, rfl⟩, shown⟩
        exact ⟨chosen, children, listed, (sign.around (by simp)).mp shown⟩
      · rintro ⟨chosen, children, listed, shown⟩
        exact ⟨_, ⟨chosen, children, listed, rfl⟩, (sign.around (by simp)).mpr shown⟩
    next undefined =>
      refine (Marks.expectUndefined inside fun defined => ?_).bind (fun _ _ _ => False.elim)
        fun _ _ => .pure (by simp) trivial
      exact undefined (refers defined type target)
  · exact .pure (by simp) trivial

theorem readSeparator_marks (inside : start.In text) (done : Nat) :
    Marks text sign registry config early (fun chains => ∃ nodes ∈ chains.cut, sign.sought nodes)
      (readSeparator (completions registry config active) done start) fun _ => True := by
  rw [readSeparator]
  split
  next literal _ =>
    split
    · exact .pure (by simp) trivial
    · exact (readLiteral_marks inside literal).map (fun readings _ => by simp) fun _ _ => trivial
  · exact .pure (by simp) trivial

/-! ### Repetitions -/

/-- If anything was cut off that a repetition remembers and that shows the sign, then that is
noted. -/
def RepeatedMarked (sign : Sign ε κ) (known : Repeated ε κ) (progress : Progress ε κ) : Prop :=
  ∀ entry ∈ known, (∃ nodes ∈ entry.2.cut, sign.sought nodes) →
    progress.failure.Tells sign.wanted

/-- The same for searches within a repetition. -/
def MarksWithin (text : List Char) (sign : Sign ε κ) (registry : Registry ε κ) (config : Config)
    (early : Prop) (loud : α → Prop) (search : StateT (Repeated ε κ) (Search ε κ) α)
    (post : α → Prop) : Prop :=
  ∀ known progress, Marked text sign registry config progress →
    (early → progress.failure.Tells sign.wanted) → RepeatedMarked sign known progress →
      let run := (search.run known).run progress
      post run.1.1 ∧ Moves text sign registry config (loud run.1.1) progress run.2 ∧
        RepeatedMarked sign run.1.2 run.2

namespace MarksWithin

variable {loud : β → Prop} {post : β → Prop}

theorem pure {result : β} (noted : loud result → early) (holds : post result) :
    MarksWithin text sign registry config early loud (Pure.pure result) post :=
  fun _ _ marked known entries =>
    ⟨holds, ⟨marked, id, fun cut => known (noted cut), fun _ => .inl⟩, entries⟩

theorem bind {search : StateT (Repeated ε κ) (Search ε κ) α}
    {next : α → StateT (Repeated ε κ) (Search ε κ) β} {loud' : α → Prop} {middle : α → Prop}
    (first : MarksWithin text sign registry config early loud' search middle)
    (kept : ∀ a known progress, middle a → loud' a → loud (((next a).run known).run progress).1.1)
    (further : ∀ a, middle a →
      MarksWithin text sign registry config (early ∨ loud' a) loud (next a) post) :
    MarksWithin text sign registry config early loud (search >>= next) post := by
  intro known progress marked noted entries
  obtain ⟨reached, moved, entries'⟩ := first known progress marked noted entries
  obtain ⟨result, moved', entries''⟩ := further _ reached _ _ moved.marked
    (fun noted' => noted'.elim (fun early => moved.stays (noted early)) moved.marks) entries'
  refine ⟨result, ⟨moved'.marked, moved'.stays ∘ moved.stays, moved'.marks, fun defined atEnd => ?_⟩,
    entries''⟩
  rcases moved'.heard defined atEnd with there | cut
  · exact (moved.heard defined there).imp_right (kept _ _ _ reached)
  · exact .inr cut

theorem lift {search : Search ε κ β} (marks : Marks text sign registry config early loud search post) :
    MarksWithin text sign registry config early loud (StateT.lift search) post := by
  intro known progress marked noted entries
  obtain ⟨result, moved⟩ := marks progress marked noted
  exact ⟨result, moved, fun entry member cut => moved.stays (entries entry member cut)⟩

/-- In the beginning, a repetition remembers nothing. -/
theorem run {search : StateT (Repeated ε κ) (Search ε κ) β}
    (marks : MarksWithin text sign registry config early loud search post) :
    Marks text sign registry config early (fun result => loud result.1) (search.run [])
      fun result => post result.1 := by
  intro progress marked noted
  obtain ⟨result, moved, -⟩ := marks [] progress marked noted fun _ member => by cases member
  exact ⟨result, moved⟩

theorem get {next : Repeated ε κ → StateT (Repeated ε κ) (Search ε κ) β}
    (further : ∀ known, MarksWithin text sign registry config
      (early ∨ ∃ entry ∈ known, ∃ nodes ∈ entry.2.cut, sign.sought nodes) loud (next known) post) :
    MarksWithin text sign registry config early loud (MonadState.get >>= next) post := by
  intro known progress marked noted entries
  exact further known known progress marked
    (fun noted' => noted'.elim noted fun ⟨entry, member, cut⟩ => entries entry member cut) entries

/-- A repetition remembers a result and returns it. -/
theorem finish {key : Nat × Nat} {chains : Chains ε κ}
    (noted : (∃ nodes ∈ chains.cut, sign.sought nodes) → early) :
    MarksWithin text sign registry config early
      (fun chains => ∃ nodes ∈ chains.cut, sign.sought nodes)
      (do modify fun known : Repeated ε κ => (key, chains) :: known; return chains)
      fun _ => True :=
  fun _ _ marked known entries => ⟨trivial,
    ⟨marked, id, fun cut => known (noted cut), fun _ => .inl⟩,
    List.forall_mem_cons.mpr ⟨fun cut => known (noted cut), entries⟩⟩

theorem mapM (loud : β → Prop) (post : α → β → Prop) {list : List α}
    {search : α → StateT (Repeated ε κ) (Search ε κ) β}
    (each : ∀ a ∈ list, ∀ early,
      MarksWithin text sign registry config early loud (search a) (post a)) :
    MarksWithin text sign registry config early (fun results => ∃ result ∈ results, loud result)
      (list.mapM search) (List.Forall₂ post list) := by
  induction list generalizing early with
  | nil => exact .pure (by simp) .nil
  | cons a rest ih =>
    rw [List.mapM_cons]
    refine (each a List.mem_cons_self early).bind
      (fun result _ _ _ cut => ⟨result, List.mem_cons_self, cut⟩) fun result first => ?_
    refine (ih fun a member => each a (List.mem_cons_of_mem _ member)).bind
      (fun results _ _ _ ⟨other, member, cut⟩ => ⟨other, List.mem_cons_of_mem _ member, cut⟩)
      fun results others => .pure ?_ (.cons first others)
    rintro ⟨other, member, cut⟩
    rcases List.mem_cons.mp member with rfl | member
    · exact .inl (.inr cut)
    · exact .inr ⟨other, member, cut⟩

end MarksWithin

/-- Nodes that are cut off show the sign behind complete ones, too. -/
theorem Sign.exists_behind {front : List (Node ε κ)} (finished : ∀ node ∈ front, node.Finished)
    {cut : List (List (Node ε κ))} :
    (∃ nodes ∈ cut.map (front ++ ·), sign.sought nodes) ↔ ∃ nodes ∈ cut, sign.sought nodes := by
  simp only [List.mem_map, exists_exists_and_eq_and, sign.behind finished]

theorem Sign.exists_append {front back : List (List (Node ε κ))} :
    (∃ nodes ∈ front ++ back, sign.sought nodes) ↔
      (∃ nodes ∈ front, sign.sought nodes) ∨ ∃ nodes ∈ back, sign.sought nodes := by
  simp only [List.mem_append, or_and_right, exists_or]

theorem readRepeated_marks (marks : NamedMarks text sign registry config active named)
    {slot : Placeholder} (several : slot.target.single? = none)
    (refers : registry.undefinedReferences = [] → Refers registry slot) {steps : Nat}
    (enough : start.rest.length < steps) (done : Nat) (inside : start.In text) :
    MarksWithin text sign registry config early
      (fun chains => ∃ nodes ∈ chains.cut, sign.sought nodes)
      (readRepeated (completions registry config active)
        (readUnit (completions registry config active) named slot) slot.quantifier steps done start)
      fun _ => True := by
  induction steps generalizing done start early with
  | zero => omega
  | succ steps ih =>
    rw [readRepeated]
    refine .get fun known => ?_
    split
    next chains found =>
      exact .pure (fun cut => .inr ⟨_, mem_of_lookup found, cut⟩) trivial
    next =>
      simp only [pure_bind]
      split
      case isFalse => exact .finish (by simp)
      refine (MarksWithin.lift ((readSeparator_marks inside done).ensuring
        (readSeparator_openings done))).bind ?kept fun opening both => ?_
      case kept =>
        intro opening known progress _ cut
        cases whole : opening.whole with
        | nil => exact cut
        | cons first others =>
          exact Sign.exists_append.mpr (.inl (Sign.exists_append.mpr (.inl cut)))
      obtain ⟨-, openings⟩ := both
      split
      next => exact .finish .inr
      next first others whole =>
        have separator : Opening config done start first.stop first.nodes := by
          rw [← mem_openings]
          exact openings ▸ whole ▸ List.mem_cons_self
        obtain ⟨_, before⟩ := separator.passes
        have opened := inside.passes before
        have front := layout_finished.opening separator
        have units_cut {units : Readings ε κ} :
            (∃ nodes ∈ units.cut.map fun node => first.nodes ++ [node], sign.sought nodes) ↔
              ∃ node ∈ units.cut, sign.sought [node] := by
          simp only [List.mem_map, exists_exists_and_eq_and, sign.behind front]
        refine (MarksWithin.lift ((readUnit_marks marks refers opened).ensuring
          (readUnit_derives marks.sound several opened))).bind ?kept fun units both => ?_
        case kept =>
          intro units known progress _ cut
          exact Sign.exists_append.mpr (.inl (Sign.exists_append.mpr (.inr (units_cut.mpr cut))))
        refine (MarksWithin.mapM (fun tails => ∃ nodes ∈ tails.cut, sign.sought nodes)
          (fun _ _ => True) fun found member early => ?each).bind ?kept
            fun tails _ => .finish ?noted
        case each =>
          split
          next => exact .pure (by simp) trivial
          -- Behind a unit that moves on, less is left of the text.
          next moves =>
            have unit := both.2 found member
            obtain ⟨_, behind⟩ := unit.passes
            have moved := before.trans behind
            have shorter := moved.rest_lt_iff.mpr moves
            have finished := layout_finished.append before behind front (layout_finished.unit unit)
            exact (ih (by omega) _ (inside.passes moved)).bind
              (fun _ _ _ _ cut => (Sign.exists_behind finished).mpr cut)
              fun _ _ => .pure (fun cut => .inr ((Sign.exists_behind finished).mp cut)) trivial
        case kept =>
          rintro tails known progress - ⟨tail, member, nodes, listed, shown⟩
          exact Sign.exists_append.mpr
            (.inr ⟨nodes, List.mem_flatMap.mpr ⟨tail, member, listed⟩, shown⟩)
        case noted =>
          intro cut
          rcases Sign.exists_append.mp cut with early | ⟨nodes, late, shown⟩
          · rcases Sign.exists_append.mp early with opening | unit
            · exact .inl (.inl (.inr opening))
            · exact .inl (.inr (units_cut.mp unit))
          · obtain ⟨tail, member, listed⟩ := List.mem_flatMap.mp late
            exact .inr ⟨tail, member, nodes, listed, shown⟩

/-! ### Items, alternatives and types -/

theorem readItem_marks (marks : NamedMarks text sign registry config active named) {item : Item}
    (refers : ∀ slot, item = .placeholder slot → registry.undefinedReferences = [] →
      Refers registry slot) (inside : start.In text) :
    Marks text sign registry config early
      (fun readings => ∃ node ∈ readings.cut, sign.sought [node])
      (readItem (completions registry config active) named item start) fun _ => True := by
  cases item with
  | literal literal span => exact readLiteral_marks inside literal
  | placeholder slot =>
    rw [readItem]
    cases single : slot.target.single? with
    | some accepts =>
      rw [readPlaceholder_run (completions registry config active) named start single]
      exact readRun_marks inside slot accepts slot.target.expected_plain (runKind_plain slot)
    | none =>
      rw [readPlaceholder_several single]
      split
      · exact readUnit_marks marks (refers slot rfl) inside
      · refine (readRepeated_marks marks single (refers slot rfl) (Nat.lt_succ_self _) 0
          inside).run.map (fun result _ => ?_) fun _ _ => trivial
        simp only [List.mem_map, exists_exists_and_eq_and]
        exact exists_congr fun nodes => and_congr_right fun _ => sign.around (by simp)

theorem readItems_marks (marks : NamedMarks text sign registry config active named)
    {items : List Item} (refers : ∀ slot, Item.placeholder slot ∈ items →
      registry.undefinedReferences = [] → Refers registry slot) {chains : List (Chain ε κ)}
    (inside : ∀ chain ∈ chains, chain.stop.In text)
    (finished : ∀ chain ∈ chains, ∀ node ∈ chain.nodes, node.Finished) :
    Marks text sign registry config early
      (fun chains => ∃ nodes ∈ chains.cut, sign.sought nodes)
      (readItems (completions registry config active) named items chains) fun _ => True := by
  induction items generalizing chains early with
  | nil => exact .pure (by simp) trivial
  | cons item rest ih =>
    have refers' slot (later : Item.placeholder slot ∈ rest) :=
      refers slot (List.mem_cons_of_mem _ later)
    -- What is cut off of this item stands behind a chain that is complete.
    have here {found : List (Chain ε κ × Readings ε κ)} (among : ∀ after ∈ found, after.1 ∈ chains) :
        (∃ nodes ∈ found.flatMap (fun after => after.2.cut.map fun node => after.1.nodes ++ [node]),
          sign.sought nodes) ↔ ∃ after ∈ found, ∃ node ∈ after.2.cut, sign.sought [node] := by
      simp only [List.mem_flatMap, List.mem_map]
      constructor
      · rintro ⟨_, ⟨after, member, node, listed, rfl⟩, shown⟩
        exact ⟨after, member, node, listed,
          (sign.behind (finished _ (among after member))).mp shown⟩
      · rintro ⟨after, member, node, listed, shown⟩
        exact ⟨_, ⟨after, member, node, listed, rfl⟩,
          (sign.behind (finished _ (among after member))).mpr shown⟩
    have among {found : List (Chain ε κ × Readings ε κ)} {derives : Chain ε κ × Readings ε κ → Prop}
        (related : List.Forall₂ (fun chain after => after.1 = chain ∧ derives after) chains found) :
        ∀ after ∈ found, after.1 ∈ chains := by
      intro after member
      obtain ⟨chain, listed, rfl, -⟩ := exists_of_forall₂ related member
      exact listed
    rw [readItems]
    refine (Marks.mapM (fun found => ∃ node ∈ found.2.cut, sign.sought [node])
      (fun chain found => found.1 = chain ∧ ∀ reading ∈ found.2.whole,
        DerivesItem registry.alternatives config item found.1.stop reading.stop reading.node)
      fun chain member early => ?each).bind ?kept fun found related => ?behind
    case each =>
      have there := inside chain member
      exact ((readItem_marks marks (fun slot same => refers slot (same ▸ List.mem_cons_self))
        there).ensuring (readItem_derives marks.sound item there)).map (fun _ _ => Iff.rfl)
          fun readings both => ⟨rfl, both.2⟩
    case kept =>
      intro found progress related cut
      exact Sign.exists_append.mpr (.inl ((here (among related)).mpr cut))
    case behind =>
      have next {chain : Chain ε κ} (member : chain ∈ firstPerStop (found.flatMap
          fun after => after.2.whole.map
            fun reading => ⟨reading.stop, after.1.nodes ++ [reading.node]⟩)) :
          chain.stop.In text ∧ ∀ node ∈ chain.nodes, node.Finished := by
        obtain ⟨before, earlier, after, ⟨rfl, derived⟩, reading, read, rfl⟩ :=
          exists_before related (fun _ _ holds => holds.1) member
        have item := derived reading read
        obtain ⟨_, passes⟩ := item.passes
        refine ⟨(inside _ earlier).passes passes, fun node listed => ?_⟩
        exact (List.mem_append.mp listed).elim (finished _ earlier node)
          (layout_finished.item item node)
      refine (ih refers' (fun chain member => (next member).1)
        fun chain member => (next member).2).bind
          (fun behind _ _ cut => Sign.exists_append.mpr (.inr cut))
          fun behind _ => .pure (fun cut => ?_) trivial
      rcases Sign.exists_append.mp cut with now | later
      · exact .inl (.inr ((here (among related)).mp now))
      · exact .inr later

theorem readAlternatives_marks (marks : NamedMarks text sign registry config active named)
    {alternatives : List (Alternative ε κ)} (registered : alternatives ⊆ registry.allAlternatives)
    (inside : start.In text) :
    Marks text sign registry config early
      (fun readings => ∃ cut ∈ readings.cut, sign.sought cut.2)
      (readAlternatives (completions registry config active) named alternatives start)
      fun _ => True := by
  refine (Marks.mapM (fun found => ∃ nodes ∈ found.2.cut, sign.sought nodes) (fun _ _ => True)
    fun chosen member early => ?each).map (fun found _ => ?_) fun _ _ => trivial
  case each =>
    have alone : ∀ chain ∈ ([⟨start, []⟩] : List (Chain ε κ)), chain.stop.In text := by
      simpa using inside
    exact (readItems_marks marks (fun slot member' defined =>
      refers_of_mem defined (registered member) member') alone (by simp)).map
        (fun _ _ => Iff.rfl) fun _ _ => trivial
  simp only [List.mem_flatMap, List.mem_map]
  constructor
  · rintro ⟨_, ⟨after, member, nodes, listed, rfl⟩, shown⟩
    exact ⟨after, member, nodes, listed, shown⟩
  · rintro ⟨after, member, nodes, listed, shown⟩
    exact ⟨_, ⟨after, member, nodes, listed, rfl⟩, shown⟩

theorem alternatives_subset (registry : Registry ε κ) (name : String) :
    registry.alternatives name ⊆ registry.allAlternatives := by
  intro chosen member
  rw [Registry.alternatives] at member
  split at member
  next entry found =>
    have listed := List.mem_of_find?_eq_some found
    exact List.mem_append_left _ (List.mem_flatMap.mpr ⟨entry, listed, member⟩)
  next => cases member

theorem readType_marks (text : List Char) (registry : Registry ε κ) (config : Config)
    (active : List (String × Nat)) (levels : Nat) :
    NamedMarks text sign registry config active (readType levels) := by
  refine ⟨readType_derives text levels (completions registry config active), ?_⟩
  induction levels generalizing active with
  | zero => exact fun name place inside early => .pure (by simp) trivial
  | succ levels ih =>
    intro name place inside early progress marked noted
    cases found : progress.known.lookup (name, place.offset) with
    | some readings =>
      rw [readType_known found]
      exact ⟨trivial, marked, id, marked.cut _ (mem_of_lookup found), fun _ => .inl⟩
    | none =>
      by_cases reading : (name, place.offset) ∈ active
      · rw [readType_active found reading]
        exact ⟨trivial, marked, id, by simp, fun _ => .inl⟩
      · let inner := active ++ [(name, place.offset)]
        have marks : NamedMarks text sign registry config inner (readType levels) :=
          ⟨readType_derives text levels (completions registry config inner), ih inner⟩
        rw [readType_new found reading rfl]
        -- What is read of the type anew is noted, and then it is remembered.
        obtain ⟨⟨-, derived⟩, moved⟩ := ((readAlternatives_marks marks
          (alternatives_subset registry name) inside).ensuring
            (readAlternatives_derives marks.sound _ inside)) progress marked noted
        refine ⟨trivial, ⟨List.forall_mem_cons.mpr ⟨fun other inside' same => ?_,
          moved.marked.derived⟩, moved.marked.inside, moved.marked.fresh, List.forall_mem_cons.mpr
            ⟨moved.marks, moved.marked.cut⟩⟩, moved.stays, moved.marks, moved.heard⟩
        obtain rfl := inside'.eq_of_offset inside same
        exact derived

end SentenceGrammar.Matching
