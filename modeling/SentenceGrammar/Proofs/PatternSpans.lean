import Mathlib.Algebra.Group.Nat.Defs
import Mathlib.Data.List.Chain
import SentenceGrammar.Proofs.PatternGrammar
import SentenceGrammar.Proofs.Places

/-!
# Places in patterns

The scanners of a pattern move from place to place of its source. What one of them reads lies
between two places, and so does what it blames if it fails. So the items of a pattern lie side by
side, and each of them can be read off its own slice of the source.

## Main results

`read_slot`: the text of a placeholder is a pattern of this placeholder alone.

`read_spans`: where the items of a pattern are, or the fault of what is no pattern.
-/
namespace SentenceGrammar

/-- The place of an item in its pattern. -/
def Item.span : Item → Span
  | .literal _ span => span
  | .placeholder slot => slot.span

def Part.isLiteral : Part → Bool
  | .literal _ => true
  | .slot .. => false

/-- The span lies between two places, neither of which is in front of the cursor. -/
def Cursor.Spans (cursor : Cursor) (span : Span) : Prop :=
  ∃ (front word : List Char) (first last : Cursor), cursor.Passes front first ∧
    first.Passes word last ∧ span = first.spanTo last

theorem Cursor.Passes.spans_spanTo {start stop : Cursor} {word : List Char}
    (passes : start.Passes word stop) : start.Spans (start.spanTo stop) :=
  ⟨[], word, start, stop, .refl start, passes, rfl⟩

theorem Cursor.Passes.spans {start stop : Cursor} {word : List Char} {span : Span}
    (passes : start.Passes word stop) (spans : stop.Spans span) : start.Spans span := by
  obtain ⟨front, inside, first, last, before, between, same⟩ := spans
  exact ⟨word ++ front, inside, first, last, passes.trans before, between, same⟩

theorem Cursor.Spans.slice? {start : Cursor} {span : Span} {text : List Char}
    (spans : start.Spans span) (inside : start.In text) (small : Text.byteSize text ≤ Span.limit) :
    ∃ word, span.slice? text = some word := by
  obtain ⟨front, word, first, last, before, passes, rfl⟩ := spans
  exact ⟨word, (inside.passes before).slice_spanTo passes small⟩

/-- A word on its own is as long as it is in the text. -/
theorem Cursor.Passes.ofOffsets_zero {start stop : Cursor} {word text : List Char}
    (passes : start.Passes word stop) (inside : start.In text)
    (small : Text.byteSize text ≤ Span.limit) :
    Span.ofOffsets 0 (Text.byteSize word) = ⟨0, (start.spanTo stop).size⟩ := by
  have behind := inside.passes passes
  have bound := behind.offset_le
  have offset := passes.offset_eq
  simp only [inside.spanTo_eq behind small, Span.size, Span.ofOffsets, Span.mk.injEq]
  omega

theorem SlotText.not_literal {text : List Char} {slot : Part} (placed : SlotText text slot) :
    slot.isLiteral = false := by
  cases placed
  rfl

/-- Two literals are never next to each other. -/
theorem Tidy.apart {parts : List Part} (tidy : Tidy parts) :
    parts.IsChain fun first second => first.isLiteral = true → second.isLiteral = false := by
  induction tidy with
  | nil => exact .nil
  | last => exact .singleton _
  | literal _ placed _ ih =>
    apply List.IsChain.cons_cons
    · exact fun _ => placed.not_literal
    · apply ih.cons
      simp [placed.not_literal]
  | slot placed _ ih =>
    apply ih.cons
    simp [placed.not_literal]

namespace Pattern

variable {opening cursor start stop : Cursor} {front : List Char}

/-! ### Literal text -/

/-- Literal text without the backslashes in front of braces and of other backslashes. -/
def unescape : List Char → List Char
  | '\\' :: '{' :: rest => '{' :: unescape rest
  | '\\' :: '}' :: rest => '}' :: unescape rest
  | '\\' :: '\\' :: rest => '\\' :: unescape rest
  | c :: rest => c :: unescape rest
  | [] => []

theorem unescape_special {c : Char} (special : Special c) (rest : List Char) :
    unescape ('\\' :: c :: rest) = c :: unescape rest := by
  rcases special with rfl | rfl | rfl <;> rfl

theorem unescape_plain {c : Char} (ordinary : c ≠ '\\') (rest : List Char) :
    unescape (c :: rest) = c :: unescape rest := by
  simp [unescape, ordinary]

theorem unescape_kept {c : Char} (ordinary : ¬Special c) (rest : List Char) :
    unescape ('\\' :: c :: rest) = '\\' :: c :: unescape rest := by
  simp only [Special, not_or] at ordinary
  rw [← unescape_plain ordinary.2.2]
  simp [unescape, ordinary]

theorem unescape_eq_nil_iff {word : List Char} : unescape word = [] ↔ word = [] := by
  fun_cases unescape word <;> simp

/-- What is left behind literal text, and what the text was before its escapes were resolved. -/
theorem go_passed (text : List Char) :
    text = (readLiteral.go text).2.1 ++ (readLiteral.go text).2.2 ∧
      (readLiteral.go text).1 = unescape (readLiteral.go text).2.1 := by
  fun_induction readLiteral.go text with
  | case1 => exact ⟨rfl, rfl⟩
  | case2 => exact ⟨rfl, rfl⟩
  | case3 c rest text passed left same special ih =>
    simp only [same] at ih
    obtain ⟨rfl, rfl⟩ := ih
    exact ⟨rfl, (unescape_special special passed).symm⟩
  | case4 c rest text passed left same ordinary ih =>
    simp only [same] at ih
    obtain ⟨rfl, rfl⟩ := ih
    exact ⟨rfl, (unescape_kept ordinary passed).symm⟩
  | case5 c rest single double brace => exact ⟨rfl, rfl⟩
  | case6 c rest single double ordinary text passed left same ih =>
    simp only [same] at ih
    obtain ⟨rfl, rfl⟩ := ih
    refine ⟨rfl, (unescape_plain ?_ passed).symm⟩
    -- The cases of backslashes stand in front of this one.
    rintro rfl
    cases ended : passed ++ left with
    | nil => exact single rfl ended
    | cons d more => exact double d more rfl ended

theorem readLiteral_passes (cursor : Cursor) : ∃ word,
    cursor.Passes word (readLiteral cursor).2 ∧ (readLiteral cursor).1 = unescape word := by
  obtain ⟨split, resolved⟩ := go_passed cursor.rest
  exact ⟨_, Cursor.passes_past split, resolved⟩

/-! ### Placeholders -/

/-- What is read is as it should be, or the fault lies behind the cursor. -/
def Located {α : Type} (opening : Cursor) (good : α → Prop) : Except Fault α → Prop
  | .ok a => good a
  | .error (_, span) => opening.Spans span

theorem Located.bind {α β : Type} {good : α → Prop} {better : β → Prop} {first : Except Fault α}
    {next : α → Except Fault β} (known : Located opening good first)
    (rest : ∀ a, good a → Located opening better (next a)) :
    Located opening better (first >>= next) := by
  cases first with
  | ok a => exact rest a known
  | error fault => exact known

/-- What lies behind a place lies behind the places in front of it. -/
theorem Located.earlier {α : Type} {good : α → Prop} {result : Except Fault α} {word : List Char}
    (known : Located cursor good result) (passes : opening.Passes word cursor) :
    Located opening good result := by
  cases result with
  | ok a => exact known
  | error fault => exact passes.spans known

theorem readUntil_located (stops : List Char) (before : opening.Passes front cursor) :
    Located opening (fun read : List Char × Cursor => cursor.Passes read.1 read.2 ∧
      ∃ c ∈ stops, ∃ rest, read.2.rest = c :: rest) (readUntil stops opening cursor) := by
  cases found : readUntil stops opening cursor with
  | ok read =>
    obtain ⟨-, c, stop, rest, written, same⟩ := readUntil_ok_iff.mp found
    rw [Located, same]
    exact ⟨Cursor.passes_past written, c, stop, rest, rfl⟩
  | error fault =>
    have skipped := Cursor.passes_skipWhile (fun c => !(stops.contains c || c == '{')) cursor
    simp only [readUntil] at found
    split at found
    · cases found
      exact (before.trans skipped).spans_spanTo
    · split at found
      · cases found
      · cases found
        exact (before.trans skipped).spans_spanTo

/-- A scanner moves on from the cursor. -/
def Onward {α : Type} (cursor : Cursor) (read : α × Cursor) : Prop :=
  ∃ word, cursor.Passes word read.2

theorem readTarget_located (name : List Char) (before : opening.Passes front cursor) :
    Located opening (Onward cursor) (readTarget name opening cursor) := by
  rw [readTarget]
  split
  next inside opened =>
    split
    next => exact (before.trans (Cursor.passes_finish cursor)).spans_spanTo
    next body left closed =>
      obtain ⟨-, rfl⟩ := readClassBody_eq_some_iff.mp closed
      have passes : cursor.Passes ('[' :: body ++ [']'])
          (cursor.past ('[' :: body ++ [']']) left) := by
        apply Cursor.passes_past
        simp [opened]
      dsimp only
      split
      · exact ⟨_, passes⟩
      · exact before.spans passes.spans_spanTo
  next =>
    apply (readUntil_located [':', '}'] before).bind
    rintro ⟨written, next⟩ ⟨passes, -⟩
    dsimp only
    split
    · exact (before.trans passes).spans_spanTo
    split
    · exact ⟨_, passes⟩
    · split
      · exact ⟨_, passes⟩
      · exact before.spans passes.spans_spanTo

theorem readQuantifier_located {target : Cursor} {type : List Char}
    (before : opening.Passes front target) (passes : target.Passes type cursor) :
    Located opening (Onward cursor) (readQuantifier opening target cursor) := by
  have here := before.trans passes
  rw [readQuantifier]
  split
  next => exact here.spans_spanTo
  next rest closed => exact ⟨['}'], Cursor.passes_past closed⟩
  next rest colon =>
    have behind : cursor.Passes [':'] (cursor.past [':'] rest) := Cursor.passes_past colon
    apply (readUntil_located ['}'] (here.trans behind)).bind
    rintro ⟨text, next⟩ ⟨last, c, stop, left, closed⟩
    obtain rfl := List.mem_singleton.mp stop
    dsimp only at closed ⊢
    split
    · have brace : next.Passes ['}'] (next.past ['}'] (next.rest.drop 1)) := by
        apply Cursor.passes_past
        simp [closed]
      exact ⟨_, behind.trans (last.trans brace)⟩
    · exact (here.trans behind).spans last.spans_spanTo
  next c rest _ _ stray =>
    have further : cursor.Passes [c] (cursor.past [c] rest) := Cursor.passes_past stray
    exact before.spans (passes.trans further).spans_spanTo

theorem readPlaceholder_located {inside : List Char} (opened : opening.rest = '{' :: inside) :
    Located opening (fun read : Placeholder × Cursor => ∃ text, opening.Passes text read.2 ∧
      SlotText text (Item.placeholder read.1).part ∧ read.1.span = opening.spanTo read.2)
        (readPlaceholder opening) := by
  have brace : opening.Passes ['{'] (opening.past ['{'] (opening.rest.drop 1)) := by
    apply Cursor.passes_past
    simp [opened]
  -- The language of placeholders tells what was read, so only the places are new.
  suffices places : Located opening (fun read : Placeholder × Cursor =>
      Onward opening read ∧ read.1.span = opening.spanTo read.2) (readPlaceholder opening) by
    cases read : readPlaceholder opening with
    | error fault => rwa [read] at places
    | ok result =>
      obtain ⟨slot, stop⟩ := result
      rw [read] at places
      obtain ⟨⟨word, passes⟩, span⟩ := places
      obtain ⟨text, written, split⟩ := readPlaceholder_sound read opened
      obtain rfl := List.append_cancel_right (split.symm.trans passes.rest_eq)
      exact ⟨text, passes, written, span⟩
  rw [readPlaceholder]
  apply (readUntil_located [':', '}'] brace).bind
  rintro ⟨written, next⟩ ⟨name, c, -, rest, here⟩
  have named := brace.trans name
  have stop : next.Passes (next.rest.take 1) (next.past (next.rest.take 1) (next.rest.drop 1)) :=
    Cursor.passes_past (List.take_append_drop 1 next.rest).symm
  have target := named.trans stop
  dsimp only
  split
  · exact named.spans_spanTo
  split
  · exact named.spans_spanTo
  split
  · exact target.spans_spanTo
  apply (readTarget_located _ target).bind
  rintro ⟨type, behind⟩ ⟨word, typed⟩
  apply (readQuantifier_located target typed).bind
  rintro ⟨quantifier, last⟩ ⟨count, counted⟩
  exact ⟨⟨_, target.trans (typed.trans counted)⟩, rfl⟩

/-! ### Items -/

/-- The items were read one behind the other, from a place of the source to its end. -/
inductive Along : Cursor → List Item → Prop where
  | done {place : Cursor} (ended : place.rest = []) : Along place []
  | literal {start stop : Cursor} {word : List Char} {items : List Item} (some : word ≠ [])
      (passes : start.Passes word stop) (others : Along stop items) :
      Along start (.literal (String.ofList (unescape word)) (start.spanTo stop) :: items)
  | slot {start stop : Cursor} {text : List Char} {slot : Placeholder} {items : List Item}
      (passes : start.Passes text stop) (written : SlotText text (Item.placeholder slot).part)
      (placed : slot.span = start.spanTo stop) (others : Along stop items) :
      Along start (.placeholder slot :: items)

/-- The literal at a cursor stands in front of what is read behind it. -/
theorem Along.behind_literal {items : List Item} (others : Along (readLiteral cursor).2 items) :
    Along cursor (literalItems cursor ++ items) := by
  obtain ⟨word, passes, resolved⟩ := readLiteral_passes cursor
  rw [literalItems, resolved]
  split
  next nothing =>
    obtain rfl := unescape_eq_nil_iff.mp nothing
    rwa [passes.eq_of_nil] at others
  next some =>
    exact .literal (fun nothing => some (unescape_eq_nil_iff.mpr nothing)) passes others

theorem readItems_located {steps : Nat} (enough : cursor.rest.length < steps) :
    Located cursor (Along cursor) (readItems steps cursor) := by
  -- A step is spent on each placeholder, which takes a character, so the steps outlast the text.
  induction steps generalizing cursor with
  | zero => exact absurd enough (Nat.not_lt_zero _)
  | succ steps ih =>
    obtain ⟨word, passes, -⟩ := readLiteral_passes cursor
    have left : (readLiteral cursor).2.rest.length ≤ steps :=
      (go_length cursor.rest).trans (Nat.le_of_lt_succ enough)
    have stops : (readLiteral cursor).2.rest = [] ∨ ∃ c rest, (c = '{' ∨ c = '}') ∧
      (readLiteral cursor).2.rest = c :: rest := go_stops cursor.rest
    rcases stops with ended | ⟨c, inside, rfl | rfl, found⟩
    · rw [readItems_ended ended]
      simpa [Located] using (Along.done ended).behind_literal
    · rw [readItems_opened found]
      apply ((readPlaceholder_located found).earlier passes).bind
      rintro ⟨slot, behind⟩ ⟨text, slotted, written, placed⟩
      have shorter : behind.rest.length < steps := by
        have less := written.shorter behind.rest
        rw [← slotted.rest_eq] at less
        omega
      apply ((ih shorter).earlier (passes.trans slotted)).bind
      intro items others
      exact (Along.slot slotted written placed others).behind_literal
    · have brace : (readLiteral cursor).2.Passes ['}'] ((readLiteral cursor).2.past ['}'] inside) :=
        Cursor.passes_past found
      rw [readItems_closed found]
      exact passes.spans brace.spans_spanTo

theorem along_of_read {source : String} {pattern : Pattern} (known : read source = .ok pattern) :
    pattern.source = source ∧ Along (.ofText source) pattern.items := by
  have located := readItems_located (Nat.lt_succ_self (Cursor.ofText source).rest.length)
  simp only [read] at known
  split at known
  next items found =>
    cases known
    rw [found] at located
    exact ⟨rfl, located⟩
  next => cases known

/-- What is written as a placeholder is a pattern on its own, of nothing but this placeholder. -/
theorem read_slot {text : List Char} {slot : Placeholder}
    (written : SlotText text (Item.placeholder slot).part) : read (String.ofList text) =
      .ok ⟨String.ofList text,
        [.placeholder { slot with span := .ofOffsets 0 (Text.byteSize text) }]⟩ := by
  have alone : Written (String.ofList text).toList [(Item.placeholder slot).part] := by
    simpa using Written.slot written .nil
  obtain ⟨⟨source, items⟩, known, parts⟩ := exists_read_of_written alone
  obtain ⟨rfl, along⟩ := along_of_read known
  rw [known]
  cases along with
  | done => cases parts
  | literal => cases parts
  | @slot _ stop word other items passes _ placed others =>
    obtain ⟨same, nothing⟩ := List.cons.inj parts
    obtain rfl := List.map_eq_nil_iff.mp nothing
    cases others with
    | done ended =>
      -- The placeholder that was read ends where its text does.
      have whole := passes.rest_eq
      have offset := passes.offset_eq
      rw [ended, List.append_nil] at whole
      simp only [Cursor.ofText, String.toList_ofList] at whole offset
      simp only [Item.part, Part.slot.injEq] at same
      obtain ⟨name, target, quantifier⟩ := same
      have span : other.span = .ofOffsets 0 (Text.byteSize text) := by
        rw [placed, Cursor.spanTo, offset, ← whole]
        simp [Cursor.ofText]
      cases other
      cases slot
      simp_all

/-! ### Slices of the source -/

/-- The spans stand side by side from one offset to another, and none of them is empty. -/
inductive Consecutive : Nat → Nat → List Span → Prop where
  | nil (offset : Nat) : Consecutive offset offset []
  | cons {start middle stop : Nat} {rest : List Span} (some : start < middle)
      (others : Consecutive middle stop rest) : Consecutive start stop (⟨start, middle⟩ :: rest)

/-- The item is what its own slice of the source says: literal text without its escapes, or else
what is read as the same placeholder if nothing stands in front of it. -/
def Sliced (source : String) : Item → Prop
  | .literal text span => ∃ word, span.slice? source.toList = some word ∧
      text = String.ofList (unescape word)
  | .placeholder slot => ∃ word, slot.span.slice? source.toList = some word ∧
      read (String.ofList word) =
        .ok ⟨String.ofList word, [.placeholder { slot with span := ⟨0, slot.span.size⟩ }]⟩

section

variable {source : String} (small : Text.byteSize source.toList ≤ Span.limit)

include small

theorem Along.consecutive {items : List Item} (along : Along start items)
    (inside : start.In source.toList) :
    Consecutive start.offset (Text.byteSize source.toList) (items.map Item.span) := by
  induction along with
  | done ended =>
    rw [inside.rest_eq_nil_iff.mp ended]
    exact .nil _
  | literal some passes others ih =>
    have behind := inside.passes passes
    rw [List.map_cons, Item.span, inside.spanTo_eq behind small]
    exact .cons (passes.offset_lt some) (ih behind)
  | slot passes written placed others ih =>
    have behind := inside.passes passes
    obtain ⟨_, rfl⟩ := written.exists_brace
    rw [List.map_cons, Item.span, placed, inside.spanTo_eq behind small]
    exact .cons (passes.offset_lt (List.cons_ne_nil _ _)) (ih behind)

theorem Along.sliced {items : List Item} (along : Along start items)
    (inside : start.In source.toList) : ∀ item ∈ items, Sliced source item := by
  induction along with
  | done => simp
  | literal _ passes _ ih =>
    rw [List.forall_mem_cons]
    constructor
    · exact ⟨_, inside.slice_spanTo passes small, rfl⟩
    · exact ih (inside.passes passes)
  | slot passes written placed _ ih =>
    have behind := inside.passes passes
    rw [List.forall_mem_cons]
    constructor
    · refine ⟨_, placed ▸ inside.slice_spanTo passes small, ?_⟩
      rw [read_slot written, placed, passes.ofOffsets_zero inside small]
    · exact ih behind

end

/-- All about places in a pattern that is read, and in what is no pattern. -/
structure ExactSpans (source : String) : Prop where
  /-- The items stand side by side and make up the whole source. -/
  consecutive : ∀ pattern, read source = .ok pattern →
    Consecutive 0 (Text.byteSize source.toList) (pattern.items.map Item.span)
  /-- No two literals are neighbours, -/
  apart : ∀ pattern, read source = .ok pattern → pattern.items.IsChain fun first second =>
    first.part.isLiteral = true → second.part.isLiteral = false
  /-- and each item can be told from its slice. -/
  sliced : ∀ pattern, read source = .ok pattern → ∀ item ∈ pattern.items, Sliced source item
  /-- Otherwise the fault is a slice of the same source. -/
  fault : ∀ error, read source = .error error →
    error.source = source ∧ ∃ word, error.span.slice? source.toList = some word

/-- The spans of patterns and of their faults are exact. -/
theorem read_spans {source : String} (short : Text.byteSize source.toList < 2 ^ 32) :
    ExactSpans source := by
  have small : Text.byteSize source.toList ≤ Span.limit := Nat.le_of_lt_succ short
  have inside : (Cursor.ofText source).In source.toList := Cursor.in_start _
  constructor
  case consecutive =>
    intro pattern known
    exact (along_of_read known).2.consecutive small inside
  case apart =>
    intro pattern known
    exact (List.isChain_map Item.part).mp (written_of_read known).tidy.apart
  case sliced =>
    intro pattern known
    exact (along_of_read known).2.sliced small inside
  case fault =>
    intro error known
    have located := readItems_located (Nat.lt_succ_self (Cursor.ofText source).rest.length)
    simp only [read] at known
    split at known
    next => cases known
    next cause span found =>
      cases known
      rw [found] at located
      exact ⟨rfl, located.slice? inside small⟩

/-- An accent and an escape make the literal longer than it looks. -/
theorem read_spans_escaped : Text.byteSize "é\\\x7b\x7bn:int\x7d".toList < 2 ^ 32 ∧
    ((read "é\\\x7b\x7bn:int\x7d").toOption.map fun pattern => pattern.items.map Item.span) =
      some [⟨0, 4⟩, ⟨4, 11⟩] ∧ ExactSpans "é\\\x7b\x7bn:int\x7d" := by
  have short : Text.byteSize "é\\\x7b\x7bn:int\x7d".toList < 2 ^ 32 := by decide
  exact ⟨short, by decide +kernel, read_spans short⟩

end Pattern
end SentenceGrammar
