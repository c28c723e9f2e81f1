import SentenceGrammar.Tree.Node

/-!
# Places of a text

A search moves from place to place of one text. What lies between two places is the word that was
passed, so a place of a text is determined by its offset. A span cuts out a slice of the text just if
it lies between two places, and the nodes of a search show exactly these slices. As long as no offset
is too large for a span, that is all that the nodes cover.
-/
namespace SentenceGrammar

namespace Text

theorem takeBytes_append (front back : List Char) :
    takeBytes (byteSize front) (front ++ back) = front := by
  induction front with
  | nil =>
    cases back with
    | nil => rfl
    | cons c rest => simp [takeBytes, Nat.pos_iff_ne_zero.mp c.utf8Size_pos]
  | cons c rest ih => simp [takeBytes, ih]

theorem byteSize_eq_zero_iff (text : List Char) : byteSize text = 0 ↔ text = [] := by
  cases text with
  | nil => simp
  | cons c rest =>
    have positive := c.utf8Size_pos
    simp only [byteSize_cons, reduceCtorEq, iff_false]
    omega

theorem splitAt?_append (front back : List Char) :
    splitAt? (byteSize front) (front ++ back) = some (front, back) := by
  induction front with
  | nil => cases back <;> rfl
  | cons c rest ih =>
    -- A character has at least one byte, so some of the budget is left for it.
    obtain ⟨size, equal⟩ := Nat.exists_eq_succ_of_ne_zero (Nat.pos_iff_ne_zero.mp c.utf8Size_pos)
    have fits : c.utf8Size ≤ size + byteSize rest + 1 := by omega
    have left : size + byteSize rest + 1 - c.utf8Size = byteSize rest := by omega
    have total : byteSize (c :: rest) = size + byteSize rest + 1 := by
      simp only [byteSize_cons]
      omega
    rw [total, List.cons_append, splitAt?, if_pos fits, left, ih]
    rfl

theorem splitAt?_eq_some_iff {offset : Nat} {text front back : List Char} :
    splitAt? offset text = some (front, back) ↔ front ++ back = text ∧ byteSize front = offset := by
  constructor
  · intro cut
    fun_induction splitAt? offset text generalizing front with
    | case1 => cases cut; exact ⟨rfl, rfl⟩
    | case2 => cases cut
    | case3 offset c rest fits ih =>
      obtain ⟨⟨inner, behind⟩, found, same⟩ := Option.map_eq_some_iff.mp cut
      cases same
      obtain ⟨rfl, size⟩ := ih found
      refine ⟨rfl, ?_⟩
      rw [byteSize_cons, size]
      omega
    | case4 => cases cut
  · rintro ⟨rfl, rfl⟩
    exact splitAt?_append front back

/-- Two cuts of one text behind equally many bytes are the same. -/
theorem append_inj_of_byteSize {a b c d : List Char} (same : a ++ b = c ++ d)
    (size : byteSize a = byteSize c) : a = c ∧ b = d := by
  have first := takeBytes_append a b
  rw [same, size, takeBytes_append] at first
  subst first
  exact ⟨rfl, List.append_cancel_left same⟩

end Text

namespace Cursor

/-- From `start` on the text goes on with `word`, and `stop` is the place behind it. -/
structure Passes (start : Cursor) (word : List Char) (stop : Cursor) : Prop where
  rest_eq : start.rest = word ++ stop.rest
  offset_eq : stop.offset = start.offset + Text.byteSize word

variable {start middle stop : Cursor} {word more : List Char} {text : List Char}

theorem Passes.refl (place : Cursor) : place.Passes [] place := ⟨rfl, rfl⟩

theorem Passes.trans (first : start.Passes word middle) (second : middle.Passes more stop) :
    start.Passes (word ++ more) stop := by
  refine ⟨?_, ?_⟩
  · rw [first.rest_eq, second.rest_eq, List.append_assoc]
  · rw [second.offset_eq, first.offset_eq, Text.byteSize_append, Nat.add_assoc]

theorem Passes.eq_of_nil (passes : start.Passes [] stop) : stop = start := by
  have rest := passes.rest_eq
  have offset := passes.offset_eq
  cases start
  cases stop
  simp_all

theorem passes_past {word rest : List Char} (split : start.rest = word ++ rest) :
    start.Passes word (start.past word rest) := ⟨split, rfl⟩

theorem Passes.split (passes : start.Passes (word ++ more) stop) :
    ∃ middle, start.Passes word middle ∧ middle.Passes more stop := by
  refine ⟨_, passes_past (passes.rest_eq.trans (List.append_assoc ..)), rfl, ?_⟩
  rw [passes.offset_eq, Text.byteSize_append]
  exact (Nat.add_assoc ..).symm

theorem passes_skipWhile (accepts : Char → Bool) (start : Cursor) :
    start.Passes (start.rest.takeWhile accepts) (start.skipWhile accepts) :=
  passes_past List.takeWhile_append_dropWhile.symm

theorem skipWhile_skipWhile (accepts : Char → Bool) (start : Cursor) :
    (start.skipWhile accepts).skipWhile accepts = start.skipWhile accepts := by
  -- The first character that is left is one that was refused.
  have nothing : (start.rest.dropWhile accepts).takeWhile accepts = [] := by
    cases rest : start.rest.dropWhile accepts with
    | nil => rfl
    | cons c more =>
      have refused := List.head?_dropWhile_not accepts start.rest
      simp only [rest, List.head?_cons] at refused
      simp [refused]
  have passes := passes_skipWhile accepts (start.skipWhile accepts)
  rw [skipWhile, past, nothing] at passes
  exact passes.eq_of_nil

theorem passes_finish (start : Cursor) : start.Passes start.rest start.finish :=
  passes_past (List.append_nil _).symm

theorem Passes.offset_le (passes : start.Passes word stop) : start.offset ≤ stop.offset := by
  rw [passes.offset_eq]
  exact Nat.le_add_right _ _

theorem Passes.word_eq_nil_iff (passes : start.Passes word stop) :
    word = [] ↔ stop.offset = start.offset := by
  rw [← Text.byteSize_eq_zero_iff, passes.offset_eq]
  omega

theorem Passes.offset_lt (passes : start.Passes word stop) (some : word ≠ []) :
    start.offset < stop.offset := by
  have moved := mt passes.word_eq_nil_iff.mpr some
  have order := passes.offset_le
  omega

/-- Whatever moves on leaves less of the text. -/
theorem Passes.rest_lt_iff (passes : start.Passes word stop) :
    stop.rest.length < start.rest.length ↔ stop.offset ≠ start.offset := by
  rw [ne_eq, ← passes.word_eq_nil_iff, passes.rest_eq, List.length_append,
    ← List.length_eq_zero_iff]
  omega

theorem Passes.upTo_eq (passes : start.Passes word stop) : start.upTo stop = word := by
  rw [upTo, passes.offset_eq, Nat.add_sub_cancel_left, passes.rest_eq, Text.takeBytes_append]

/-- The word between two places is determined by them. -/
theorem Passes.word_unique (first : start.Passes word stop) (second : start.Passes more stop) :
    word = more := first.upTo_eq.symm.trans second.upTo_eq

/-- The cursor is a place of the text, on a boundary between two characters. -/
def In (text : List Char) (place : Cursor) : Prop := ∃ front, Passes ⟨0, text⟩ front place

theorem in_start (text : List Char) : In text ⟨0, text⟩ := ⟨[], .refl _⟩

theorem In.passes (inside : In text start) (passes : start.Passes word stop) : In text stop := by
  obtain ⟨front, before⟩ := inside
  exact ⟨front ++ word, before.trans passes⟩

/-- A place of a text is determined by its offset. -/
theorem In.eq_of_offset {a b : Cursor} (first : In text a) (second : In text b)
    (same : a.offset = b.offset) : a = b := by
  obtain ⟨front, before⟩ := first
  obtain ⟨front', before'⟩ := second
  -- What lies in front of both has as many bytes as their offset says.
  have sizes : Text.byteSize front = Text.byteSize front' := by
    have left := before.offset_eq
    have right := before'.offset_eq
    simp only at left right
    omega
  have equal := Text.append_inj_of_byteSize (before.rest_eq.symm.trans before'.rest_eq) sizes
  cases a
  cases b
  simp_all

theorem In.offset_add (inside : In text start) :
    start.offset + Text.byteSize start.rest = Text.byteSize text := by
  obtain ⟨front, before⟩ := inside
  have total := congrArg Text.byteSize before.rest_eq
  have offset := before.offset_eq
  simp only [Text.byteSize_append] at total offset
  omega

theorem In.offset_le (inside : In text start) : start.offset ≤ Text.byteSize text := by
  have total := inside.offset_add
  omega

/-- Nothing is left of the text just at its end. -/
theorem In.rest_eq_nil_iff (inside : In text start) :
    start.rest = [] ↔ start.offset = Text.byteSize text := by
  have total := inside.offset_add
  rw [← Text.byteSize_eq_zero_iff]
  omega

/-- In a text of less than `2 ^ 32` bytes no offset is cut down. -/
theorem In.spanTo_eq (first : start.In text) (last : stop.In text)
    (small : Text.byteSize text ≤ Span.limit) :
    start.spanTo stop = ⟨start.offset, stop.offset⟩ := by
  have before := first.offset_le
  have behind := last.offset_le
  simp only [spanTo, Span.ofOffsets, Span.mk.injEq]
  omega

end Cursor

theorem Span.slice?_eq_some_iff {span : Span} {text word : List Char} :
    span.slice? text = some word ↔
      ∃ start stop : Cursor, start.In text ∧ start.Passes word stop ∧
        span = ⟨start.offset, stop.offset⟩ := by
  constructor
  · intro sliced
    obtain ⟨order, sliced⟩ := Option.ite_none_right_eq_some.mp sliced
    obtain ⟨⟨front, rest⟩, first, sliced⟩ := Option.bind_eq_some_iff.mp sliced
    obtain ⟨⟨inside, back⟩, second, same⟩ := Option.bind_eq_some_iff.mp sliced
    cases same
    obtain ⟨rfl, before⟩ := Text.splitAt?_eq_some_iff.mp first
    obtain ⟨rfl, size⟩ := Text.splitAt?_eq_some_iff.mp second
    refine ⟨⟨span.start, word ++ back⟩, ⟨span.stop, back⟩, ⟨front, rfl, ?_⟩, ⟨rfl, ?_⟩, rfl⟩
    · simp [before]
    · simp only [size]
      omega
  · rintro ⟨start, stop, ⟨front, before⟩, passes, rfl⟩
    have first : Text.splitAt? start.offset text = some (front, start.rest) :=
      Text.splitAt?_eq_some_iff.mpr ⟨before.rest_eq.symm, by simp [before.offset_eq]⟩
    have second : Text.splitAt? (stop.offset - start.offset) start.rest = some (word, stop.rest) :=
      Text.splitAt?_eq_some_iff.mpr ⟨passes.rest_eq.symm, by simp [passes.offset_eq]⟩
    rw [slice?, if_pos passes.offset_le]
    simp [first, second]

namespace Cursor

variable {start stop : Cursor} {text word : List Char}

/-- What a span cuts out from a place on. -/
theorem In.slice?_eq_some_iff (inside : start.In text) {offset : Nat} :
    (⟨start.offset, offset⟩ : Span).slice? text = some word ↔
      ∃ place, start.Passes word place ∧ place.offset = offset := by
  rw [Span.slice?_eq_some_iff]
  constructor
  · rintro ⟨first, last, other, passes, same⟩
    obtain ⟨offset, rfl⟩ := Span.mk.inj same
    obtain rfl := inside.eq_of_offset other offset
    exact ⟨last, passes, rfl⟩
  · rintro ⟨place, passes, rfl⟩
    exact ⟨start, place, inside, passes, rfl⟩

/-- In a text of less than `2 ^ 32` bytes the span between two places cuts out what lies between
them. -/
theorem In.slice_spanTo (inside : In text start) (passes : start.Passes word stop)
    (small : Text.byteSize text ≤ Span.limit) : (start.spanTo stop).slice? text = some word := by
  rw [inside.spanTo_eq (inside.passes passes) small]
  exact inside.slice?_eq_some_iff.mpr ⟨stop, passes, rfl⟩

end Cursor

/-! ### Nodes and what they show -/

/-- The complete node between two places covers the word that lies between them. -/
theorem Node.covering_eq {ε κ : Type} {start stop : Cursor} {word : List Char}
    (passes : start.Passes word stop) (name : Option String) (kind : NodeKind ε κ)
    (children : List (Node ε κ)) :
    covering start stop name kind children =
      ⟨kind, name, start.spanTo stop, String.ofList word, true, children⟩ := by
  rw [covering, passes.upTo_eq]

/-- In front of the end of a text, it does not matter for a cut what comes behind the text. -/
theorem Text.map_fst_splitAt?_append {offset : Nat} {front : List Char} (back : List Char)
    (fits : offset ≤ byteSize front) :
    (splitAt? offset (front ++ back)).map Prod.fst = (splitAt? offset front).map Prod.fst := by
  fun_induction splitAt? offset front with
  | case1 => simp [splitAt?]
  | case2 offset => simp at fits
  | case3 offset c rest inside ih =>
    have fits' : offset + 1 - c.utf8Size ≤ byteSize rest := by
      simp only [byteSize_cons] at fits
      omega
    have further := congrArg (Option.map (c :: ·)) (ih fits')
    simpa [splitAt?, inside, Option.map_map, Function.comp_def] using further
  | case4 offset c rest outside => simp [splitAt?, outside]

namespace Node

variable {ε κ : Type} {node : Node ε κ} {start stop : Cursor} {text : List Char}

/-- A node shows all that it covers if its span is as long. -/
theorem text_eq_covered (whole : node.span.size = Text.byteSize node.covered.toList) :
    node.text = node.covered := by
  have cut : Text.splitAt? node.span.size node.covered.toList = some (node.covered.toList, []) :=
    Text.splitAt?_eq_some_iff.mpr ⟨List.append_nil _, whole.symm⟩
  simp [Node.text, Span.part?, cut]

/-- What a node shows is a beginning of what it covers. -/
theorem text_prefix (node : Node ε κ) : node.text.toList <+: node.covered.toList := by
  rw [Node.text, Span.part?, String.toList_ofList]
  cases cut : Text.splitAt? node.span.size node.covered.toList with
  | none => exact List.nil_prefix
  | some parts =>
    obtain ⟨same, -⟩ := Text.splitAt?_eq_some_iff.mp cut
    exact ⟨_, same⟩

/-- Up to the largest offset that a span can tell, a node shows all that it covers. -/
theorem text_of_small (span : node.span = start.spanTo stop)
    (passes : start.Passes node.covered.toList stop) (small : stop.offset ≤ Span.limit) :
    node.text = node.covered := by
  have order := passes.offset_eq
  apply text_eq_covered
  simp only [span, Cursor.spanTo, Span.ofOffsets, Span.size]
  omega

/-- In a text of less than `2 ^ 32` bytes, the span of a node cuts out what the node shows. -/
theorem slice_text (inside : start.In text) (span : node.span = start.spanTo stop)
    (passes : start.Passes node.covered.toList stop) (small : Text.byteSize text ≤ Span.limit) :
    node.span.slice? text = some node.text.toList := by
  rw [text_of_small span passes (Nat.le_trans (inside.passes passes).offset_le small), span]
  exact inside.slice_spanTo passes small

/-- From the largest offset on that a span can tell, a node shows nothing. -/
theorem text_beyond (span : node.span = start.spanTo stop)
    (passes : start.Passes node.covered.toList stop) (beyond : Span.limit ≤ start.offset) :
    node.text = "" := by
  have order := passes.offset_le
  have size : node.span.size = 0 := by
    simp only [span, Cursor.spanTo, Span.ofOffsets, Span.size]
    omega
  rw [Node.text, Span.part?, size, Text.splitAt?]
  rfl

/-- What a node shows is what its span cuts out of the whole text, or nothing if there is no such
slice. -/
theorem text_eq_slice (inside : start.In text) (span : node.span = start.spanTo stop)
    (passes : start.Passes node.covered.toList stop) :
    node.text = String.ofList ((node.span.slice? text).getD []) := by
  have order := passes.offset_eq
  by_cases beyond : Span.limit ≤ start.offset
  · -- Both ends of the span are held at the limit, so there is nothing in between.
    have empty : node.span = ⟨Span.limit, Span.limit⟩ := by
      simp only [span, Cursor.spanTo, Span.ofOffsets, Span.mk.injEq]
      omega
    rw [text_beyond span passes beyond, empty, Span.slice?]
    cases cut : Text.splitAt? Span.limit text <;> simp [Text.splitAt?]
  · obtain ⟨front, before⟩ := inside
    have starts : node.span.start = start.offset := by
      simp only [span, Cursor.spanTo, Span.ofOffsets]
      omega
    have fits : node.span.size ≤ Text.byteSize node.covered.toList := by
      simp only [span, Cursor.spanTo, Span.ofOffsets, Span.size]
      omega
    have cut : Text.splitAt? start.offset text = some (front, start.rest) :=
      Text.splitAt?_eq_some_iff.mpr ⟨before.rest_eq.symm, by simp [before.offset_eq]⟩
    have forwards : node.span.start ≤ node.span.stop := by
      simp only [span, Cursor.spanTo, Span.ofOffsets]
      omega
    have sliced : node.span.slice? text = node.span.part? start.rest := by
      rw [Span.slice?, if_pos forwards, Span.part?, Span.size, starts, cut]
      cases cut : Text.splitAt? (node.span.stop - start.offset) start.rest <;> simp [cut]
    have part : node.span.part? start.rest = node.span.part? node.covered.toList := by
      rw [passes.rest_eq]
      exact Text.map_fst_splitAt?_append stop.rest fits
    rw [sliced, part, Node.text]

end Node

end SentenceGrammar
