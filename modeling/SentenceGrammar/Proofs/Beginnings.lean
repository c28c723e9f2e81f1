import SentenceGrammar.Proofs.LongerText
import SentenceGrammar.Proofs.Soundness

/-!
# A text and its beginning

A search through a text and a search for completions through a beginning of it do the same until the
beginning ends. If nothing is cut off there, then the end of the beginning did not matter, and the
two searches take the same course: they find readings that stop at the same places, and note the same
failures. The same holds of any two searches through one text, for completions or not.
-/
namespace SentenceGrammar.Matching

open Cursor (continued)

variable {ε κ ρ ρ' α β γ δ : Type}

/-- A grammar, a text, and a beginning of it. -/
structure Beginning (ε κ : Type) where
  registry : Registry ε κ
  config : Config
  front : List Char
  /-- What follows the beginning in the whole text. -/
  more : List Char
  /-- Whether the search through the whole text is for completions, too. -/
  completing : Bool

namespace Beginning

variable (pair : Beginning ε κ)

/-- What a search through the whole text knows. -/
def long (active : List (String × Nat)) : Scope ε κ :=
  ⟨pair.registry, pair.config, pair.completing, active⟩

/-- What a search for completions through the beginning knows. -/
def short (active : List (String × Nat)) : Scope ε κ :=
  ⟨pair.registry, pair.config, true, active⟩

/-- What was found stops at the same places in both texts. -/
def Alike {σ : Type} (stop : σ → Cursor) (found found' : List σ) : Prop :=
  List.Forall₂ (fun a b => stop a = (stop b).continued pair.more) found found'

end Beginning

def Failure.continued (more : List Char) (failure : Failure) : Failure :=
  { failure with place := failure.place.continued more }

theorem Failure.note_continued (failure : Failure) (context : List String) (place : Cursor)
    (expected : Expected) (more : List Char) :
    (failure.continued more).note context (place.continued more) expected =
      (failure.note context place expected).continued more := by
  rw [note, note, apply_ite (Failure.continued more), apply_ite (Failure.continued more)]
  rfl

/-- Both searches remember the same types, with readings that stop at the same places, and the same
failure. What is remembered of the beginning derives. -/
structure Twins (pair : Beginning ε κ) (progress progress' : Progress ε κ) : Prop where
  known : List.Forall₂ (fun entry entry' => entry.1 = entry'.1 ∧
    pair.Alike TypeReading.stop entry.2.whole entry'.2.whole) progress.known progress'.known
  failure : progress.failure = progress'.failure.continued pair.more
  derived : Derived (pair.short []) pair.front progress'.known

/-- As long as the search through the beginning is quiet, that is, nothing is cut off, both searches
take the same course. -/
def Mirrors (pair : Beginning ε κ) (quiet : β → Prop) (search : Search ε κ α)
    (search' : Search ε κ β) (post : α → β → Prop) : Prop :=
  ∀ progress progress', Twins pair progress progress' →
    pair.more = [] ∨ quiet (search'.run progress').1 →
      post (search.run progress).1 (search'.run progress').1 ∧
        Twins pair (search.run progress).2 (search'.run progress').2

theorem forall₂_keepNew {related : α → β → Prop} {place : α → Nat} {place' : β → Nat}
    {list : List α} {list' : List β} (all : List.Forall₂ related list list')
    (same : ∀ a b, related a b → place a = place' b) (seen : List Nat) :
    List.Forall₂ related (keepNew place seen list) (keepNew place' seen list') := by
  induction all generalizing seen with
  | nil => exact .nil
  | cons first _ ih =>
    rw [keepNew, keepNew, same _ _ first]
    split
    · exact ih _
    · exact .cons first (ih _)

/-- Lists with the same keys are looked up in the same way. -/
theorem lookup_forall₂ {κ : Type} [BEq κ] [LawfulBEq κ] {related : κ × α → κ × β → Prop}
    {known : List (κ × α)} {known' : List (κ × β)} (all : List.Forall₂ related known known')
    (keys : ∀ entry entry', related entry entry' → entry.1 = entry'.1) (key : κ) :
    (known.lookup key = none ∧ known'.lookup key = none) ∨
      ∃ found found', known.lookup key = some found ∧ known'.lookup key = some found' ∧
        related (key, found) (key, found') := by
  induction all with
  | nil => exact .inl ⟨rfl, rfl⟩
  | @cons entry entry' _ _ first _ ih =>
    obtain ⟨name, found⟩ := entry
    obtain ⟨name', found'⟩ := entry'
    obtain rfl : name = name' := keys _ _ first
    rw [List.lookup_cons, List.lookup_cons]
    cases same : key == name with
    | true =>
      obtain rfl := beq_iff_eq.mp same
      exact .inr ⟨found, found', rfl, rfl, first⟩
    | false => exact ih

variable {pair : Beginning ε κ} {active : List (String × Nat)}

theorem Beginning.Alike.keepNew {σ : Type} {stop : σ → Cursor} {found found' : List σ}
    (alike : pair.Alike stop found found') (seen : List Nat) :
    pair.Alike stop (keepNew (fun a => (stop a).offset) seen found)
      (keepNew (fun a => (stop a).offset) seen found') :=
  forall₂_keepNew alike (fun _ _ same => congrArg Cursor.offset same) seen

namespace Mirrors

variable {quiet : β → Prop} {post : α → β → Prop}

theorem pure {result : α} {result' : β} (holds : post result result') :
    Mirrors pair quiet (Pure.pure result) (Pure.pure result') post :=
  fun _ _ twins _ => ⟨holds, twins⟩

/-- If the first part is not quiet, then what follows must not be, either. -/
theorem bind {search : Search ε κ α} {search' : Search ε κ β} {next : α → Search ε κ γ}
    {next' : β → Search ε κ δ} {quiet' : δ → Prop} {post' : γ → δ → Prop}
    (first : Mirrors pair quiet search search' post)
    (heard : ∀ result progress, quiet' ((next' result).run progress).1 → quiet result)
    (further : ∀ result result', post result result' →
      Mirrors pair quiet' (next result) (next' result') post') :
    Mirrors pair quiet' (search >>= next) (search' >>= next') post' := by
  intro progress progress' twins silent
  rw [run_bind] at silent
  obtain ⟨both, twins'⟩ := first progress progress' twins (silent.imp_right (heard _ _))
  exact further _ _ both _ _ twins' silent

theorem expect {place place' : Cursor} (same : place = place'.continued pair.more)
    (expected : Expected) :
    Mirrors pair (fun _ => True) (expect (pair.long active) place expected)
      (expect (pair.short active) place' expected) fun _ _ => True := by
  intro progress progress' twins _
  refine ⟨trivial, twins.known, ?_, twins.derived⟩
  have noted := Failure.note_continued progress'.failure (active.map Prod.fst) place' expected
    pair.more
  rw [← twins.failure, ← same] at noted
  exact noted

theorem afterExpect {place place' : Cursor} (same : place = place'.continued pair.more)
    {expected : Expected} {search : Search ε κ α} {search' : Search ε κ β}
    (mirrors : Mirrors pair quiet search search' post) :
    Mirrors pair quiet (Matching.expect (pair.long active) place expected >>= fun _ => search)
      (Matching.expect (pair.short active) place' expected >>= fun _ => search') post :=
  (expect same expected).bind (fun _ _ _ => trivial) fun _ _ _ => mirrors

theorem perhapsExpect {condition condition' : Prop} [Decidable condition] [Decidable condition']
    (both : condition ↔ condition') {place place' : Cursor}
    (same : place = place'.continued pair.more) {expected : Expected}
    {next : Unit → Search ε κ α} {next' : Unit → Search ε κ β}
    (mirrors : ∀ noted noted', Mirrors pair quiet (next noted) (next' noted') post) :
    Mirrors pair quiet
      (if condition then Matching.expect (pair.long active) place expected >>= next else next ())
      (if condition' then Matching.expect (pair.short active) place' expected >>= next'
        else next' ()) post := by
  by_cases noted : condition
  · rw [if_pos noted, if_pos (both.mp noted)]
    exact (expect same expected).bind (fun _ _ _ => trivial) fun _ _ _ => mirrors _ _
  · rw [if_neg noted, if_neg (mt both.mpr noted)]
    exact mirrors _ _

theorem mapM (quiet : δ → Prop) (post : γ → δ → Prop) {search : α → Search ε κ γ}
    {search' : β → Search ε κ δ} {related : α → β → Prop} {list : List α} {list' : List β}
    (all : List.Forall₂ related list list')
    (each : ∀ a b, related a b → b ∈ list' → Mirrors pair quiet (search a) (search' b) post) :
    Mirrors pair (fun results => ∀ result ∈ results, quiet result) (list.mapM search)
      (list'.mapM search') (List.Forall₂ post) := by
  induction all with
  | nil => exact .pure .nil
  | cons first _ ih =>
    rw [List.mapM_cons, List.mapM_cons]
    refine (each _ _ first List.mem_cons_self).bind
      (fun result progress silent => silent _ List.mem_cons_self) fun result result' both => ?_
    refine (ih fun a b related member => each a b related (List.mem_cons_of_mem _ member)).bind
      (fun results progress silent result member =>
        silent _ (List.mem_cons_of_mem _ member)) fun results results' others => ?_
    exact .pure (.cons both others)

/-- What the search through the beginning ensures may be assumed. -/
theorem ensuring {search : Search ε κ α} {search' : Search ε κ β} {strong : β → Prop}
    (mirrors : Mirrors pair quiet search search' post)
    (ensured : Ensures (Derived (pair.short []) pair.front) search' strong) :
    Mirrors pair quiet search search' fun result result' => post result result' ∧ strong result' := by
  intro progress progress' twins silent
  obtain ⟨both, twins'⟩ := mirrors progress progress' twins silent
  exact ⟨⟨both, (ensured progress' twins.derived).1⟩, twins'⟩

end Mirrors

/-! ### Terminals -/

variable {start : Cursor}

theorem readLiteral_mirrors (text : String) :
    Mirrors pair (fun readings => readings.cut = [])
      (readLiteral (pair.long active) text (start.continued pair.more))
      (readLiteral (pair.short active) text start)
      fun readings readings' => pair.Alike Reading.stop readings.whole readings'.whole := by
  by_cases whole : pair.more = []
  -- The texts are the same.
  · rw [readLiteral, readLiteral, whole, Cursor.continued_nil]
    cases scanLiteral text.toList start with
    | whole stop => exact .pure (.cons (by simp [whole]) .nil)
    | ended missing => exact .afterExpect (by simp [whole]) (.pure .nil)
    | differs place missing => exact .afterExpect (by simp [whole]) (.pure .nil)
  · rw [readLiteral, readLiteral, scanLiteral_continued]
    cases scanLiteral text.toList start with
    | whole stop => exact .pure (.cons rfl .nil)
    | differs place missing => exact .afterExpect rfl (.pure .nil)
    | ended missing =>
      intro _ _ _ silent
      exact absurd (silent.resolve_left whole) (List.cons_ne_nil _ _)

theorem readRun_mirrors (slot : Placeholder) (accepts : Char → Bool) (expected : Expected)
    (kind : NodeKind ε κ) :
    Mirrors pair (fun readings => readings.cut = [])
      (readRun (pair.long active) slot accepts expected kind (start.continued pair.more))
      (readRun (pair.short active) slot accepts expected kind start)
      fun readings readings' => pair.Alike Reading.stop readings.whole readings'.whole := by
  cases scanned : scanRun slot.quantifier accepts [] 0 start.offset start.rest with
  | mk scan extendable =>
    by_cases ended : pair.more ≠ [] ∧ extendable = true ∧ scan.reached.rest = []
    · obtain ⟨some, extendable, atEnd⟩ := ended
      intro progress progress' _ silent
      simp [readRun, scanned, extendable, atEnd, Scope.keep, Beginning.short, some] at silent
    · have longer : scanRun slot.quantifier accepts [] 0 (start.continued pair.more).offset
          (start.continued pair.more).rest = (scan.continued pair.more, extendable) := by
        by_cases whole : pair.more = []
        · simp [whole, scanned]
        · exact scanRun_continued scanned fun further atEnd => ended ⟨whole, further, atEnd⟩
      rw [readRun, readRun, longer, scanned]
      refine .perhapsExpect Iff.rfl rfl fun _ _ => .pure ?_
      simp only [Beginning.Alike, Scan.continued, List.forall₂_map_left_iff,
        List.forall₂_map_right_iff, List.forall₂_same, implies_true]

theorem readNumber_mirrors (slot : Placeholder) (type : Builtin) :
    Mirrors pair (fun readings => readings.cut = [])
      (readNumber (pair.long active) slot type (start.continued pair.more))
      (readNumber (pair.short active) slot type start)
      fun readings readings' => pair.Alike Reading.stop readings.whole readings'.whole := by
  by_cases ended : pair.more ≠ [] ∧ (scanNumber (type = .float) start).reached.rest = []
  · obtain ⟨some, atEnd⟩ := ended
    intro progress progress' _ silent
    simp [readNumber, atEnd, Scope.keep, Beginning.short, some] at silent
  · have longer : scanNumber (type = .float) (start.continued pair.more) =
        (scanNumber (type = .float) start).continued pair.more := by
      by_cases whole : pair.more = []
      · simp [whole]
      · exact scanNumber_continued fun atEnd => ended ⟨whole, atEnd⟩
    have open_iff : ((scanNumber (type = .float) start).continued pair.more).reached.rest = [] ↔
        (scanNumber (type = .float) start).reached.rest = [] := by
      simp only [Scan.continued, Cursor.continued_rest, List.append_eq_nil_iff]
      exact ⟨And.left, fun atEnd => ⟨atEnd, not_not.mp fun some => ended ⟨some, atEnd⟩⟩⟩
    rw [readNumber, readNumber, longer]
    dsimp only
    refine .perhapsExpect (or_congr ?_ open_iff) rfl fun _ _ => .pure ?_
    · simp [Scan.continued]
    · simp only [Beginning.Alike, Scan.continued, List.forall₂_map_left_iff,
        List.forall₂_map_right_iff, List.forall₂_same, implies_true]

/-! ### Items -/

variable (pair) in
/-- Both read every type at every place of the beginning in the same way. -/
structure NamedMirrors (active : List (String × Nat)) (named : TypeReader ε κ) : Prop where
  sound : NamedSound pair.registry.alternatives pair.front (Derived (pair.short []) pair.front)
    (pair.short active) named
  same : ∀ name (place : Cursor), place.In pair.front →
    Mirrors pair (fun readings => readings.cut = [])
      (named (pair.long active) name (place.continued pair.more))
      (named (pair.short active) name place)
      fun readings readings' => pair.Alike TypeReading.stop readings.whole readings'.whole

variable {named : TypeReader ε κ}

theorem readUnit_mirrors (mirrors : NamedMirrors pair active named) (slot : Placeholder)
    (inside : start.In pair.front) :
    Mirrors pair (fun readings => readings.cut = [])
      (readUnit (pair.long active) named slot (start.continued pair.more))
      (readUnit (pair.short active) named slot start)
      fun readings readings' => pair.Alike Reading.stop readings.whole readings'.whole := by
  rw [readUnit, readUnit]
  split
  · exact readNumber_mirrors slot _
  next type _ =>
    rw [readNamed, readNamed]
    by_cases defined : pair.registry.containsType type = true
    · rw [if_pos (show (pair.long active).registry.containsType type = true from defined),
        if_pos (show (pair.short active).registry.containsType type = true from defined)]
      refine (mirrors.same type start inside).bind
        (fun readings _ silent => List.map_eq_nil_iff.mp silent) fun readings readings' alike => ?_
      refine .pure ?_
      simpa only [Beginning.Alike, List.forall₂_map_left_iff, List.forall₂_map_right_iff] using alike
    · rw [if_neg (show ¬(pair.long active).registry.containsType type = true from defined),
        if_neg (show ¬(pair.short active).registry.containsType type = true from defined)]
      exact .afterExpect rfl (.pure .nil)
  · exact .pure .nil

theorem readSeparator_mirrors (done : Nat) :
    Mirrors pair (fun readings => readings.cut = [])
      (readSeparator (pair.long active) done (start.continued pair.more))
      (readSeparator (pair.short active) done start)
      fun readings readings' => pair.Alike Chain.stop readings.whole readings'.whole := by
  rw [readSeparator, readSeparator]
  cases separator : pair.config.repetition.separator? with
  | none =>
    simp only [Beginning.long, Beginning.short, separator]
    exact .pure (.cons rfl .nil)
  | some text =>
    simp only [Beginning.long, Beginning.short, separator]
    split
    · exact .pure (.cons rfl .nil)
    · refine (readLiteral_mirrors text).bind
        (fun readings _ silent => List.map_eq_nil_iff.mp silent) fun readings readings' alike => ?_
      refine .pure ?_
      simpa only [Beginning.Alike, List.forall₂_map_left_iff, List.forall₂_map_right_iff] using alike

/-! ### Repetitions -/

variable (pair) in
/-- Two repetitions remember the same counts at the same places, with chains that stop at the same
places. -/
def RepeatedAlike (known known' : Repeated ε κ) : Prop :=
  List.Forall₂ (fun entry entry' => entry.1 = entry'.1 ∧
    pair.Alike Chain.stop entry.2.whole entry'.2.whole) known known'

/-- The same for searches within a repetition. -/
def MirrorsWithin (pair : Beginning ε κ) (quiet : β → Prop)
    (search : StateT (Repeated ε κ) (Search ε κ) α) (search' : StateT (Repeated ε κ) (Search ε κ) β)
    (post : α → β → Prop) : Prop :=
  ∀ known known', RepeatedAlike pair known known' →
    Mirrors pair (fun result => quiet result.1) (search.run known) (search'.run known')
      fun result result' => post result.1 result'.1 ∧ RepeatedAlike pair result.2 result'.2

namespace MirrorsWithin

variable {quiet : β → Prop} {post : α → β → Prop}

theorem pure {result : α} {result' : β} (holds : post result result') :
    MirrorsWithin pair quiet (Pure.pure result) (Pure.pure result') post :=
  fun _ _ alike => .pure ⟨holds, alike⟩

theorem bind {search : StateT (Repeated ε κ) (Search ε κ) α}
    {search' : StateT (Repeated ε κ) (Search ε κ) β}
    {next : α → StateT (Repeated ε κ) (Search ε κ) γ}
    {next' : β → StateT (Repeated ε κ) (Search ε κ) δ} {quiet' : δ → Prop}
    {post' : γ → δ → Prop} (first : MirrorsWithin pair quiet search search' post)
    (heard : ∀ result known progress, quiet' (((next' result).run known).run progress).1.1 →
      quiet result)
    (further : ∀ result result', post result result' →
      MirrorsWithin pair quiet' (next result) (next' result') post') :
    MirrorsWithin pair quiet' (search >>= next) (search' >>= next') post' := by
  intro known known' alike
  rw [StateT.run_bind, StateT.run_bind]
  exact (first known known' alike).bind (fun result progress => heard result.1 result.2 progress)
    fun result result' both => further _ _ both.1 _ _ both.2

theorem lift {search : Search ε κ α} {search' : Search ε κ β}
    (mirrors : Mirrors pair quiet search search' post) :
    MirrorsWithin pair quiet (StateT.lift search) (StateT.lift search') post :=
  fun _ _ alike => mirrors.bind (fun _ _ silent => silent) fun _ _ both => .pure ⟨both, alike⟩

theorem mapM (quiet : δ → Prop) (post : γ → δ → Prop)
    {search : α → StateT (Repeated ε κ) (Search ε κ) γ}
    {search' : β → StateT (Repeated ε κ) (Search ε κ) δ} {related : α → β → Prop} {list : List α}
    {list' : List β}
    (all : List.Forall₂ related list list')
    (each : ∀ a b, related a b → b ∈ list' →
      MirrorsWithin pair quiet (search a) (search' b) post) :
    MirrorsWithin pair (fun results => ∀ result ∈ results, quiet result) (list.mapM search)
      (list'.mapM search') (List.Forall₂ post) := by
  induction all with
  | nil => exact .pure .nil
  | cons first _ ih =>
    rw [List.mapM_cons, List.mapM_cons]
    refine (each _ _ first List.mem_cons_self).bind
      (fun result _ _ silent => silent _ List.mem_cons_self) fun result result' both => ?_
    refine (ih fun a b related member => each a b related (List.mem_cons_of_mem _ member)).bind
      (fun results _ _ silent result member =>
        silent _ (List.mem_cons_of_mem _ member)) fun results results' others => ?_
    exact .pure (.cons both others)

/-- What both go on with depends on what both remember. -/
theorem get {next : Repeated ε κ → StateT (Repeated ε κ) (Search ε κ) α}
    {next' : Repeated ε κ → StateT (Repeated ε κ) (Search ε κ) β}
    (further : ∀ known known', RepeatedAlike pair known known' →
      MirrorsWithin pair quiet (next known) (next' known') post) :
    MirrorsWithin pair quiet (MonadState.get >>= next) (MonadState.get >>= next') post :=
  fun known known' alike => further known known' alike known known' alike

/-- A repetition remembers a result and returns it. -/
theorem finish {key : Nat × Nat} {chains chains' : Chains ε κ}
    (alike : pair.Alike Chain.stop chains.whole chains'.whole) {quiet : Chains ε κ → Prop} :
    MirrorsWithin pair quiet
      (do modify fun known : Repeated ε κ => (key, chains) :: known; return chains)
      (do modify fun known : Repeated ε κ => (key, chains') :: known; return chains')
      fun chains chains' => pair.Alike Chain.stop chains.whole chains'.whole :=
  fun _ _ known => .pure ⟨alike, .cons ⟨rfl, alike⟩ known⟩

end MirrorsWithin

theorem readRepeated_mirrors (mirrors : NamedMirrors pair active named) {slot : Placeholder}
    (several : slot.target.single? = none) {steps steps' : Nat}
    (enough : (start.continued pair.more).rest.length < steps) (enough' : start.rest.length < steps')
    (done : Nat) (inside : start.In pair.front) :
    MirrorsWithin pair (fun chains => chains.cut = [])
      (readRepeated (pair.long active) (readUnit (pair.long active) named slot) slot.quantifier steps
        done (start.continued pair.more))
      (readRepeated (pair.short active) (readUnit (pair.short active) named slot) slot.quantifier
        steps' done start)
      fun chains chains' => pair.Alike Chain.stop chains.whole chains'.whole := by
  induction steps generalizing steps' done start with
  | zero => omega
  | succ steps ih =>
    obtain ⟨steps', rfl⟩ := Nat.exists_eq_succ_of_ne_zero (Nat.ne_of_gt (Nat.zero_lt_of_lt enough'))
    rw [readRepeated, readRepeated]
    refine .get fun known known' alike => ?_
    rw [Cursor.continued_offset]
    rcases lookup_forall₂ alike (fun _ _ both => both.1) (start.offset, done) with
      ⟨none, none'⟩ | ⟨chains, chains', found, found', -, both⟩
    case inr =>
      rw [found, found']
      exact .pure both
    rw [none, none']
    simp only [pure_bind]
    have here : pair.Alike Chain.stop
        (if slot.quantifier.least ≤ done then [(⟨start.continued pair.more, []⟩ : Chain ε κ)]
          else [])
        (if slot.quantifier.least ≤ done then [(⟨start, []⟩ : Chain ε κ)] else []) := by
      split
      · exact .cons rfl .nil
      · exact .nil
    -- All ways to end are the same: stopping here is added, and of each place one chain is kept.
    have ends {chains chains' : List (Chain ε κ)}
        (further : pair.Alike Chain.stop chains chains') :=
      Beginning.Alike.keepNew (List.rel_append further here) []
    split
    case isFalse => exact .finish (ends .nil)
    refine (MirrorsWithin.lift ((readSeparator_mirrors done).ensuring
      (readSeparator_openings done))).bind ?heard fun opening opening' both => ?_
    case heard =>
      intro opening known progress silent
      cases whole : opening.whole with
      | nil =>
        rw [whole] at silent
        exact silent
      | cons first others =>
        rw [whole] at silent
        have cut : opening.cut ++ _ ++ _ = [] := silent
        exact (List.append_eq_nil_iff.mp (List.append_eq_nil_iff.mp cut).1).1
    obtain ⟨opened, openings⟩ := both
    obtain ⟨whole, cut⟩ := opening
    obtain ⟨whole', cut'⟩ := opening'
    cases opened with
    | nil => exact .finish (ends .nil)
    | @cons first first' others others' same rest =>
      have separator : Opening pair.config done start first'.stop first'.nodes := by
        rw [← mem_openings]
        exact openings ▸ List.mem_cons_self
      obtain ⟨_, before⟩ := separator.passes
      have opened := inside.passes before
      dsimp only
      rw [same]
      refine (MirrorsWithin.lift ((readUnit_mirrors mirrors slot opened).ensuring
        (readUnit_derives mirrors.sound several opened))).bind ?_ fun units units' both => ?_
      · intro units known progress silent
        have cut : cut' ++ units.cut.map (fun node => first'.nodes ++ [node]) ++ _ = [] := silent
        exact List.map_eq_nil_iff.mp (List.append_eq_nil_iff.mp (List.append_eq_nil_iff.mp cut).1).2
      refine (MirrorsWithin.mapM (fun tails => tails.cut = [])
        (fun tails tails' => pair.Alike Chain.stop tails.whole tails'.whole) both.1
        fun found found' same member => ?each).bind ?_ fun tails tails' related => .finish (ends ?_)
      case each =>
        obtain ⟨_, behind⟩ := (both.2 found' member).passes
        have moved := before.trans behind
        rw [same, Cursor.continued_offset]
        split
        next => exact .pure .nil
        -- Behind a unit that moves on, less is left of both texts.
        next moves =>
          have shorter := moved.rest_lt_iff.mpr moves
          simp only [Cursor.continued_rest, List.length_append] at enough
          refine (ih (by simp; omega) (by omega) _ (inside.passes moved)).bind
            (fun _ _ _ silent => List.map_eq_nil_iff.mp silent) fun rest rest' alike => .pure ?_
          simpa only [Beginning.Alike, Chains.after, List.forall₂_map_left_iff,
            List.forall₂_map_right_iff] using alike
      · intro tails known progress silent tail member
        have cut : cut' ++ units'.cut.map (fun node => first'.nodes ++ [node]) ++
          tails.flatMap Chains.cut = [] := silent
        exact List.flatMap_eq_nil_iff.mp (List.append_eq_nil_iff.mp cut).2 tail member
      · exact List.rel_flatMap related fun _ _ alike => alike

/-! ### Items, alternatives and types -/

theorem readRepetition_mirrors (mirrors : NamedMirrors pair active named) {slot : Placeholder}
    (several : slot.target.single? = none) (inside : start.In pair.front) :
    Mirrors pair (fun readings => readings.cut = [])
      (readRepetition (pair.long active) named slot (start.continued pair.more))
      (readRepetition (pair.short active) named slot start)
      fun readings readings' => pair.Alike Reading.stop readings.whole readings'.whole := by
  refine (readRepeated_mirrors mirrors several (Nat.lt_succ_self _) (Nat.lt_succ_self _) 0 inside [] []
    .nil).bind (fun _ _ silent => List.map_eq_nil_iff.mp silent) fun found found' both => .pure ?_
  simpa only [Beginning.Alike, List.forall₂_map_left_iff, List.forall₂_map_right_iff] using both.1

theorem readItem_mirrors (mirrors : NamedMirrors pair active named) (item : Item)
    (inside : start.In pair.front) :
    Mirrors pair (fun readings => readings.cut = [])
      (readItem (pair.long active) named item (start.continued pair.more))
      (readItem (pair.short active) named item start)
      fun readings readings' => pair.Alike Reading.stop readings.whole readings'.whole := by
  cases item with
  | literal text span => exact readLiteral_mirrors text
  | placeholder slot =>
    rw [readItem, readItem]
    cases single : slot.target.single? with
    | none =>
      rw [readPlaceholder_several single, readPlaceholder_several single]
      split
      · exact readUnit_mirrors mirrors slot inside
      · exact readRepetition_mirrors mirrors single inside
    | some accepts =>
      cases target : slot.target with
      | charClass set =>
        simp only [readPlaceholder, target]
        exact readRun_mirrors slot _ _ _
      | builtin type =>
        have known : type.accepts? = some accepts := by simpa [target, Target.single?] using single
        simp only [readPlaceholder, target, known]
        exact readRun_mirrors slot _ _ _
      | named type => simp [target, Target.single?] at single

theorem readItems_mirrors (mirrors : NamedMirrors pair active named) (items : List Item)
    {chains chains' : List (Chain ε κ)} (alike : pair.Alike Chain.stop chains chains')
    (inside : ∀ chain ∈ chains', chain.stop.In pair.front) :
    Mirrors pair (fun chains => chains.cut = [])
      (readItems (pair.long active) named items chains)
      (readItems (pair.short active) named items chains')
      fun chains chains' => pair.Alike Chain.stop chains.whole chains'.whole := by
  induction items generalizing chains chains' with
  | nil => exact .pure alike
  | cons item rest ih =>
    rw [readItems, readItems]
    refine (Mirrors.mapM (fun found => found.2.cut = []) (fun found found' =>
        pair.Alike Reading.stop found.2.whole found'.2.whole ∧ ∀ reading ∈ found'.2.whole,
          reading.stop.In pair.front) alike fun chain chain' same member => ?each).bind ?heard
      fun found found' related => ?behind
    case each =>
      have here := inside chain' member
      rw [same]
      refine ((readItem_mirrors mirrors item here).ensuring
        (readItem_derives mirrors.sound item here)).bind (fun _ _ silent => silent)
          fun readings readings' both => .pure ⟨both.1, fun reading read => ?_⟩
      obtain ⟨_, passes⟩ := (both.2 reading read).passes
      exact here.passes passes
    case heard =>
      intro found progress silent after member
      have cut : found.flatMap (fun after => after.2.cut.map fun node => after.1.nodes ++ [node]) ++ _
          = [] := silent
      exact List.map_eq_nil_iff.mp
        (List.flatMap_eq_nil_iff.mp (List.append_eq_nil_iff.mp cut).1 after member)
    case behind =>
      refine (ih (Beginning.Alike.keepNew (List.rel_flatMap related fun after after' both => ?_) [])
        fun chain member => ?_).bind ?_ fun _ _ alike => .pure alike
      · simpa only [Beginning.Alike, List.forall₂_map_left_iff, List.forall₂_map_right_iff]
          using both.1
      · have appended := (keepNew_sublist _ _ _).subset member
        simp only [List.mem_flatMap, List.mem_map] at appended
        obtain ⟨after, registered, reading, read, rfl⟩ := appended
        obtain ⟨_, _, both⟩ := exists_of_forall₂ related registered
        exact both.2 reading read
      · intro behind progress silent
        exact (List.append_eq_nil_iff.mp silent).2

theorem readAlternatives_mirrors (mirrors : NamedMirrors pair active named)
    (alternatives : List (Alternative ε κ)) (inside : start.In pair.front) :
    Mirrors pair (fun readings => readings.cut = [])
      (readAlternatives (pair.long active) named alternatives (start.continued pair.more))
      (readAlternatives (pair.short active) named alternatives start)
      fun readings readings' => pair.Alike TypeReading.stop readings.whole readings'.whole := by
  have begins : pair.Alike Chain.stop [(⟨start.continued pair.more, []⟩ : Chain ε κ)]
      [⟨start, []⟩] := .cons rfl .nil
  have same : List.Forall₂ (fun one other : Alternative ε κ => one = other) alternatives
      alternatives := List.forall₂_refl _
  refine (Mirrors.mapM (fun found => found.2.cut = []) (fun found found' =>
      pair.Alike Chain.stop found.2.whole found'.2.whole) same fun chosen chosen' equal _ => ?each).bind
    ?heard fun found found' related => .pure ?whole
  case each =>
    subst equal
    exact (readItems_mirrors mirrors chosen.pattern.items begins (by simpa using inside)).bind
      (fun _ _ silent => silent) fun _ _ alike => .pure alike
  case heard =>
    intro found progress silent after member
    exact List.map_eq_nil_iff.mp (List.flatMap_eq_nil_iff.mp silent after member)
  case whole =>
    refine Beginning.Alike.keepNew (List.rel_flatMap related fun after after' alike => ?_) []
    simpa only [Beginning.Alike, List.forall₂_map_left_iff, List.forall₂_map_right_iff] using alike

theorem readType_mirrors (pair : Beginning ε κ) (active : List (String × Nat)) (levels : Nat) :
    NamedMirrors pair active (readType levels) := by
  refine ⟨readType_derives pair.front levels (pair.short active), ?_⟩
  induction levels generalizing active with
  | zero => exact fun name place inside => .pure .nil
  | succ levels ih =>
    intro name place inside progress progress' twins silent
    rcases lookup_forall₂ twins.known (fun _ _ both => both.1) (name, place.offset) with
      ⟨new, new'⟩ | ⟨readings, readings', found, found', -, both⟩
    case inr =>
      have found : progress.known.lookup (name, (place.continued pair.more).offset) = _ := found
      rw [readType_known found, readType_known found']
      exact ⟨both, twins⟩
    have new : progress.known.lookup (name, (place.continued pair.more).offset) = none := new
    by_cases reading : (name, place.offset) ∈ active
    · rw [readType_active new reading, readType_active new' reading]
      exact ⟨.nil, twins⟩
    · let inner := active ++ [(name, place.offset)]
      have mirrors : NamedMirrors pair inner (readType levels) :=
        ⟨readType_derives pair.front levels (pair.short inner), ih inner⟩
      rw [readType_new new' reading rfl] at silent ⊢
      rw [readType_new new reading rfl]
      -- What is read of the type anew is alike, and then it is remembered.
      obtain ⟨⟨alike, derived⟩, twins'⟩ := ((readAlternatives_mirrors mirrors
        (pair.registry.alternatives name) inside).ensuring
          (readAlternatives_derives mirrors.sound _ inside)) progress progress' twins silent
      refine ⟨alike, .cons ⟨rfl, alike⟩ twins'.known, twins'.failure,
        List.forall_mem_cons.mpr ⟨fun other inside' same => ?_, twins'.derived⟩⟩
      obtain rfl := inside'.eq_of_offset inside same
      exact derived

end SentenceGrammar.Matching
