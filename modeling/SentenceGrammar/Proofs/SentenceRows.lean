import Mathlib.Data.List.Nodup
import Mathlib.Data.List.Perm.Subperm
import SentenceGrammar.Proofs.FirstPerPlace
import SentenceGrammar.Proofs.Places

/-!
# Rows of sentences

Where sentences may end behind each place decides which texts are rows of sentences. The search for
a row goes from place to place in layers, and each place is visited once. What counts is whether the
first visit came behind white space, for only then a sentence may begin there.
-/
namespace SentenceGrammar.Matching

open Text (isBlank)

/-- From a place on, the text is a row of sentences that end at the given places. White space may
follow each of them, and must if another one follows. Where the others may begin is restricted. -/
inductive SentenceRow (ends : Cursor → List Cursor) (opens : Cursor → Prop) :
    Cursor → List Cursor → Prop where
  | none {place : Cursor} (atEnd : place.rest = []) : SentenceRow ends opens place []
  | last {place stop : Cursor} (sentence : stop ∈ ends place)
      (atEnd : (stop.skipWhile isBlank).rest = []) : SentenceRow ends opens place [stop]
  | further {place stop : Cursor} {stops : List Cursor} (sentence : stop ∈ ends place)
      (separated : (stop.skipWhile isBlank).offset ≠ stop.offset)
      (opened : opens (stop.skipWhile isBlank))
      (rest : SentenceRow ends opens (stop.skipWhile isBlank) stops) :
      SentenceRow ends opens place (stop :: stops)

/-- A place behind the sentences so far, and whether another one may begin there. -/
abbrev Visit := Cursor × Bool

/-- Where one more sentence leads to, if one may begin. -/
def successors (ends : Cursor → List Cursor) (visit : Visit) : List Visit :=
  if visit.2 then
    (ends visit.1).map fun stop =>
      (stop.skipWhile isBlank, decide ((stop.skipWhile isBlank).offset ≠ stop.offset))
  else []

/-- The places seen so far and those that were reached last. -/
structure Layer where
  seen : List Nat
  visits : List Visit

namespace Layer

def first (place : Cursor) : Layer := ⟨[place.offset], [(place, true)]⟩

/-- One sentence more: the first visit of each place that was not seen before. -/
def next (ends : Cursor → List Cursor) (layer : Layer) : Layer :=
  let visits := keepNew (fun visit => visit.1.offset) layer.seen
    (layer.visits.flatMap (successors ends))
  ⟨visits.map (fun visit => visit.1.offset) ++ layer.seen, visits⟩

def after (ends : Cursor → List Cursor) : Nat → Layer → Layer
  | 0, layer => layer
  | count + 1, layer => after ends count (layer.next ends)

/-- One of the next so many layers gets to the end of the text. -/
def Finishes (ends : Cursor → List Cursor) (limit : Nat) (layer : Layer) : Prop :=
  ∃ count < limit, ∃ visit ∈ (layer.after ends count).visits, visit.1.rest = []

end Layer

variable {ends : Cursor → List Cursor} {start place stop : Cursor} {text : List Char}
  {opens : Cursor → Prop} {visit : Visit}

theorem mem_successors {earlier visit : Visit} :
    visit ∈ successors ends earlier ↔ earlier.2 = true ∧ ∃ stop ∈ ends earlier.1,
      visit = (stop.skipWhile isBlank,
        decide ((stop.skipWhile isBlank).offset ≠ stop.offset)) := by
  rw [successors, List.mem_ite_nil_right, List.mem_map]
  simp only [eq_comm]

theorem after_succ (ends : Cursor → List Cursor) (count : Nat) (layer : Layer) :
    layer.after ends (count + 1) = (layer.after ends count).next ends := by
  induction count generalizing layer with
  | zero => rfl
  | succ count ih => exact ih (layer.next ends)

theorem finishes_succ {limit : Nat} {layer : Layer} :
    layer.Finishes ends (limit + 1) ↔
      (∃ visit ∈ layer.visits, visit.1.rest = []) ∨ (layer.next ends).Finishes ends limit := by
  constructor
  · rintro ⟨count, less, found⟩
    cases count with
    | zero => exact .inl found
    | succ count => exact .inr ⟨count, Nat.lt_of_succ_lt_succ less, found⟩
  · rintro (here | ⟨count, less, found⟩)
    · exact ⟨0, Nat.succ_pos limit, here⟩
    · exact ⟨count + 1, Nat.succ_lt_succ less, found⟩

theorem not_finishes_of_empty {limit : Nat} {layer : Layer} (empty : layer.visits = []) :
    ¬layer.Finishes ends limit := by
  have stays count : (layer.after ends count).visits = [] := by
    induction count generalizing layer with
    | zero => exact empty
    | succ count ih => exact ih (by simp [Layer.next, empty, keepNew])
  rintro ⟨count, -, visit, member, -⟩
  rw [stays] at member
  cases member

/-- The visits after so many sentences. -/
def visitsAfter (ends : Cursor → List Cursor) (start : Cursor) (count : Nat) : List Visit :=
  ((Layer.first start).after ends count).visits

/-- The first visit of the place came behind white space, or it is where the sentences start. -/
def Opened (ends : Cursor → List Cursor) (start place : Cursor) : Prop :=
  ∃ count, (place, true) ∈ visitsAfter ends start count

/-- A place may be reached by sentences that begin at the start or behind white space, and that do
not end where they begin. -/
inductive Reachable (ends : Cursor → List Cursor) (start : Cursor) : Visit → Prop where
  | start : Reachable ends start (start, true)
  | next {place stop : Cursor} (before : Reachable ends start (place, true))
      (sentence : stop ∈ ends place) (moves : stop ≠ place) :
      Reachable ends start (stop.skipWhile isBlank,
        decide ((stop.skipWhile isBlank).offset ≠ stop.offset))

/-- No place can be reached both directly behind a sentence and behind white space. -/
def Unambiguous (ends : Cursor → List Cursor) (start : Cursor) : Prop :=
  ∀ place, Reachable ends start (place, true) → ¬Reachable ends start (place, false)

theorem mem_visitsAfter_succ {count : Nat} (member : visit ∈ visitsAfter ends start (count + 1)) :
    visit.1.offset ∉ ((Layer.first start).after ends count).seen ∧
      ∃ place, (place, true) ∈ visitsAfter ends start count ∧ ∃ stop ∈ ends place,
        visit = (stop.skipWhile isBlank,
          decide ((stop.skipWhile isBlank).offset ≠ stop.offset)) := by
  have kept : visit ∈ keepNew (fun visit : Visit => visit.1.offset)
      ((Layer.first start).after ends count).seen
      ((visitsAfter ends start count).flatMap (successors ends)) := by
    rwa [visitsAfter, after_succ] at member
  have new := not_seen_of_mem_keepNew kept
  have reached := (keepNew_sublist _ _ _).subset kept
  obtain ⟨⟨place, may⟩, before, behind⟩ := List.mem_flatMap.mp reached
  obtain ⟨rfl, stop, sentence, same⟩ := mem_successors.mp behind
  exact ⟨new, place, before, stop, sentence, same⟩

theorem seen_of_mem_visitsAfter {count : Nat} (member : visit ∈ visitsAfter ends start count) :
    visit.1.offset ∈ ((Layer.first start).after ends count).seen := by
  cases count with
  | zero =>
    obtain rfl := List.mem_singleton.mp member
    exact List.mem_singleton.mpr rfl
  | succ count =>
    rw [visitsAfter, after_succ] at member
    rw [after_succ]
    exact List.mem_append_left _ (List.mem_map.mpr ⟨visit, member, rfl⟩)

/-- All places where a sentence may begin are behind the white space around them. -/
theorem Reachable.settled (settled : start.skipWhile isBlank = start)
    (reached : Reachable ends start visit) : visit.1.skipWhile isBlank = visit.1 := by
  cases reached with
  | start => exact settled
  | next => exact Cursor.skipWhile_skipWhile _ _

theorem reachable_of_mem_visitsAfter (settled : start.skipWhile isBlank = start) {count : Nat}
    (member : visit ∈ visitsAfter ends start count) : Reachable ends start visit := by
  induction count generalizing visit with
  | zero =>
    obtain rfl := List.mem_singleton.mp member
    exact .start
  | succ count ih =>
    obtain ⟨new, place, before, stop, sentence, rfl⟩ := mem_visitsAfter_succ member
    refine .next (ih before) sentence fun stays => new ?_
    -- A sentence without text leads back to a place that was seen.
    have same : (stop.skipWhile isBlank).offset = place.offset := by
      rw [stays]
      exact congrArg Cursor.offset ((ih before).settled settled)
    exact same ▸ seen_of_mem_visitsAfter before

/-- Every offset that was seen belongs to a visit. -/
theorem exists_visit_of_seen {count offset : Nat}
    (seen : offset ∈ ((Layer.first start).after ends count).seen) :
    ∃ earlier ≤ count, ∃ visit ∈ visitsAfter ends start earlier, visit.1.offset = offset := by
  induction count with
  | zero =>
    obtain rfl := List.mem_singleton.mp seen
    exact ⟨0, Nat.le_refl 0, (start, true), List.mem_singleton.mpr rfl, rfl⟩
  | succ count ih =>
    rw [after_succ] at seen
    rcases List.mem_append.mp seen with now | before
    · obtain ⟨visit, member, rfl⟩ := List.mem_map.mp now
      refine ⟨count + 1, Nat.le_refl _, visit, ?_, rfl⟩
      rw [visitsAfter, after_succ]
      exact member
    · obtain ⟨earlier, bound, found⟩ := ih before
      exact ⟨earlier, Nat.le_succ_of_le bound, found⟩

/-- A sentence at a place where one may begin leads to a place that is visited. -/
theorem exists_visit_behind {count : Nat} (opened : (place, true) ∈ visitsAfter ends start count)
    (sentence : stop ∈ ends place) :
    ∃ later ≤ count + 1, ∃ visit ∈ visitsAfter ends start later,
      visit.1.offset = (stop.skipWhile isBlank).offset := by
  have behind : (stop.skipWhile isBlank,
      decide ((stop.skipWhile isBlank).offset ≠ stop.offset)) ∈
        (visitsAfter ends start count).flatMap (successors ends) :=
    List.mem_flatMap.mpr ⟨_, opened, mem_successors.mpr ⟨rfl, stop, sentence, rfl⟩⟩
  -- Either the place was seen before, or it is new, and then it is visited now.
  by_cases seen : (stop.skipWhile isBlank).offset ∈ ((Layer.first start).after ends count).seen
  · obtain ⟨earlier, bound, found⟩ := exists_visit_of_seen seen
    exact ⟨earlier, Nat.le_succ_of_le bound, found⟩
  · obtain ⟨visit, kept, same⟩ : ∃ visit ∈ keepNew (fun visit : Visit => visit.1.offset) _ _, _ :=
      exists_mem_keepNew behind seen
    refine ⟨count + 1, Nat.le_refl _, visit, ?_, same⟩
    rw [visitsAfter, after_succ]
    exact kept

variable (text ends) in
/-- Sentences that begin inside the text end there. -/
def EndsInside : Prop := ∀ place : Cursor, place.In text → ∀ stop ∈ ends place, stop.In text

theorem inside_skipBlank (inside : place.In text) : (place.skipWhile isBlank).In text :=
  inside.passes (Cursor.passes_skipWhile _ _)

theorem Reachable.inside (within : EndsInside ends text) (inside : start.In text)
    (reached : Reachable ends start visit) : visit.1.In text := by
  induction reached with
  | start => exact inside
  | next _ sentence _ ih => exact inside_skipBlank (within _ ih _ sentence)

theorem visit_behind (within : EndsInside ends text) (inside : start.In text)
    (settled : start.skipWhile isBlank = start) {count : Nat}
    (opened : (place, true) ∈ visitsAfter ends start count) (sentence : stop ∈ ends place) :
    ∃ later ≤ count + 1, ∃ separated,
      (stop.skipWhile isBlank, separated) ∈ visitsAfter ends start later := by
  obtain ⟨later, bound, ⟨there, separated⟩, visited, same⟩ := exists_visit_behind opened sentence
  have before := (reachable_of_mem_visitsAfter settled opened).inside within inside
  have behind := inside_skipBlank (within _ before _ sentence)
  have found := (reachable_of_mem_visitsAfter settled visited).inside within inside
  obtain rfl := found.eq_of_offset behind same
  exact ⟨later, bound, separated, visited⟩

/-- Only where sentences end within the text matters for what is visited. -/
theorem visitsAfter_congr {ends' : Cursor → List Cursor} (within : EndsInside ends text)
    (inside : start.In text) (settled : start.skipWhile isBlank = start)
    (same : ∀ place : Cursor, place.In text → ends place = ends' place) (count : Nat) :
    visitsAfter ends start count = visitsAfter ends' start count := by
  have layers : (Layer.first start).after ends count = (Layer.first start).after ends' count := by
    induction count with
    | zero => rfl
    | succ count ih =>
      have behind : (visitsAfter ends start count).flatMap (successors ends) =
          (visitsAfter ends start count).flatMap (successors ends') := by
        refine List.flatMap_congr fun visit member => ?_
        have place := (reachable_of_mem_visitsAfter settled member).inside within inside
        rw [successors, successors, same visit.1 place]
      rw [after_succ, after_succ, ← ih, Layer.next, Layer.next]
      rw [visitsAfter] at behind
      rw [behind]
  exact congrArg Layer.visits layers

/-! ### Visits and rows -/

-- Whatever row goes on from a place where a sentence may begin, there is one from the start.
private theorem row_from_start {count : Nat} {stops : List Cursor}
    (opened : (place, true) ∈ visitsAfter ends start count)
    (row : SentenceRow ends (Opened ends start) place stops) :
    ∃ stops, SentenceRow ends (Opened ends start) start stops := by
  induction count generalizing place stops with
  | zero =>
    obtain rfl := (Prod.mk.inj (List.mem_singleton.mp opened)).1
    exact ⟨stops, row⟩
  -- A visit behind white space is one sentence more in front of the row.
  | succ count ih =>
    obtain ⟨-, earlier, before, stop, sentence, same⟩ := mem_visitsAfter_succ opened
    obtain ⟨rfl, separated⟩ := Prod.mk.inj same
    exact ih before (.further sentence (of_decide_eq_true separated.symm) ⟨count + 1, opened⟩ row)

private theorem visit_of_row (within : EndsInside ends text) (inside : start.In text)
    (settled : start.skipWhile isBlank = start) {stops : List Cursor}
    (opened : Opened ends start place)
    (row : SentenceRow ends (Opened ends start) place stops) :
    ∃ count, ∃ visit ∈ visitsAfter ends start count, visit.1.rest = [] := by
  induction row with
  | @none place atEnd =>
    obtain ⟨count, member⟩ := opened
    exact ⟨count, _, member, atEnd⟩
  | @last place stop sentence atEnd =>
    obtain ⟨count, member⟩ := opened
    obtain ⟨later, -, separated, visited⟩ := visit_behind within inside settled member sentence
    exact ⟨later, _, visited, atEnd⟩
  | further _ _ allowed _ ih => exact ih allowed

/-- The end of the text is visited just if the text is a row whose sentences all begin at places
that were opened. -/
theorem visited_atEnd_iff (within : EndsInside ends text) (inside : start.In text)
    (settled : start.skipWhile isBlank = start) :
    (∃ count, ∃ visit ∈ visitsAfter ends start count, visit.1.rest = []) ↔
      ∃ stops, SentenceRow ends (Opened ends start) start stops := by
  constructor
  · rintro ⟨count, visit, member, atEnd⟩
    cases count with
    | zero =>
      obtain rfl := List.mem_singleton.mp member
      exact ⟨[], .none atEnd⟩
    | succ count =>
      obtain ⟨-, place, before, stop, sentence, rfl⟩ := mem_visitsAfter_succ member
      exact row_from_start before (.last sentence atEnd)
  · rintro ⟨stops, row⟩
    exact visit_of_row within inside settled ⟨0, List.mem_singleton.mpr rfl⟩ row

theorem SentenceRow.imp {other : Cursor → Prop} {stops : List Cursor}
    (row : SentenceRow ends opens place stops) (implies : ∀ place, opens place → other place) :
    SentenceRow ends other place stops := by
  induction row with
  | none atEnd => exact .none atEnd
  | last sentence atEnd => exact .last sentence atEnd
  | further sentence separated opened _ ih =>
    exact .further sentence separated (implies _ opened) ih

/-- Where nothing is ambiguous, every place that may be reached behind white space is opened. -/
theorem opened_of_reachable (within : EndsInside ends text) (inside : start.In text)
    (settled : start.skipWhile isBlank = start) (unambiguous : Unambiguous ends start)
    {visit : Visit} (reached : Reachable ends start visit) (may : visit.2 = true) :
    Opened ends start visit.1 := by
  induction reached with
  | start => exact ⟨0, List.mem_singleton.mpr rfl⟩
  | @next place stop before sentence moves ih =>
    obtain ⟨count, member⟩ := ih rfl
    -- The place is visited for certain; unambiguous, it cannot be visited as closed.
    obtain ⟨later, -, separated, visited⟩ := visit_behind within inside settled member sentence
    cases separated with
    | true => exact ⟨later, visited⟩
    | false =>
      have again : Reachable ends start (stop.skipWhile isBlank, true) := by
        rw [← may]
        exact .next before sentence moves
      exact absurd (reachable_of_mem_visitsAfter settled visited) (unambiguous _ again)

theorem row_opened (within : EndsInside ends text) (inside : start.In text)
    (settled : start.skipWhile isBlank = start) (unambiguous : Unambiguous ends start)
    {stops : List Cursor} (reached : Reachable ends start (place, true))
    (row : SentenceRow ends (fun _ => True) place stops) :
    SentenceRow ends (Opened ends start) place stops := by
  induction row with
  | none atEnd => exact .none atEnd
  | last sentence atEnd => exact .last sentence atEnd
  | further sentence separated _ _ ih =>
    have next := Reachable.next reached sentence fun stays => separated <| by
      rw [stays, reached.settled settled]
    rw [decide_eq_true separated] at next
    have opened := opened_of_reachable within inside settled unambiguous next rfl
    exact .further sentence separated opened (ih next)

/-! ### The number of layers -/

private theorem seen_length {count : Nat} (some : visitsAfter ends start count ≠ []) :
    count + 1 ≤ ((Layer.first start).after ends count).seen.length := by
  induction count with
  | zero => exact Nat.le_refl _
  | succ count ih =>
    rw [visitsAfter, after_succ] at some
    have before : visitsAfter ends start count ≠ [] := by
      intro empty
      rw [visitsAfter] at empty
      simp [Layer.next, empty, keepNew] at some
    have shorter := ih before
    have positive := List.length_pos_iff.mpr some
    rw [after_succ]
    simp only [Layer.next, List.length_append, List.length_map] at positive ⊢
    omega

private theorem nodup_seen (ends : Cursor → List Cursor) (start : Cursor) (count : Nat) :
    ((Layer.first start).after ends count).seen.Nodup := by
  induction count with
  | zero => exact List.nodup_singleton _
  | succ count ih =>
    rw [after_succ]
    refine List.nodup_append.mpr ⟨?_, ih, ?_⟩
    · exact List.pairwise_map.mpr (pairwise_keepNew _ _ _)
    · intro offset now other before same
      obtain ⟨visit, kept, rfl⟩ := List.mem_map.mp now
      exact not_seen_of_mem_keepNew kept (same ▸ before)

/-- A layer with visits comes after no more sentences than the text has places. -/
theorem count_lt_of_visit (within : EndsInside ends text) (inside : start.In text)
    (settled : start.skipWhile isBlank = start) {count : Nat}
    (some : visitsAfter ends start count ≠ []) : count < Text.byteSize text + 1 := by
  -- Each layer with visits has seen one more offset, and these are offsets of the text.
  have bounded : ((Layer.first start).after ends count).seen ⊆
      List.range (Text.byteSize text + 1) := by
    intro offset seen
    obtain ⟨earlier, -, visit, member, rfl⟩ := exists_visit_of_seen seen
    have place := (reachable_of_mem_visitsAfter settled member).inside within inside
    exact List.mem_range.mpr (Nat.lt_succ_of_le place.offset_le)
  have total := (List.Nodup.subperm (nodup_seen ends start count) bounded).length_le
  rw [List.length_range] at total
  exact Nat.lt_of_lt_of_le (seen_length some) total

end SentenceGrammar.Matching
