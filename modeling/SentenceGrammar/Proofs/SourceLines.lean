import Mathlib.Data.Prod.Lex
import SentenceGrammar.Diagnostic.Snippet
import SentenceGrammar.Proofs.Places

/-!
# Places in lines

A report names the place of a label by a line and a column, and shows the line with carets below it.
The line is the number of newlines in front of the place, the column counts the characters behind
the last of them, and what is shown is looked up among all lines, which have lost their line
endings. All this agrees with the pieces between the newlines of the text.

## Main result

`renderLabel_points`: the place that a label is shown at.
-/
namespace SentenceGrammar

/-- Of two places of a text, the later one is reached from the earlier one. -/
theorem Cursor.In.exists_passes {text : List Char} {place later : Cursor} (inside : place.In text)
    (inside' : later.In text) (order : place.offset ≤ later.offset) :
    ∃ word, place.Passes word later := by
  obtain ⟨front, before⟩ := inside
  obtain ⟨front', before'⟩ := inside'
  have offset := before.offset_eq
  have offset' := before'.offset_eq
  have same := before.rest_eq.symm.trans before'.rest_eq
  rcases List.append_eq_append_iff.mp same with ⟨word, parts, rest⟩ | ⟨word, parts, rest⟩
  · refine ⟨word, rest, ?_⟩
    rw [offset', offset, parts, Text.byteSize_append, Nat.add_assoc]
  · -- The word goes back from the later place, so there is nothing in it.
    have none : word = [] := by
      rw [parts, Text.byteSize_append] at offset
      rw [← Text.byteSize_eq_zero_iff]
      omega
    subst none
    refine ⟨[], by simpa using rest.symm, ?_⟩
    rw [offset', offset, parts]
    simp

namespace Text

variable {lines : List (List Char)} {tail front rest text : List Char}

/-! ### Pieces between newlines -/

theorem segments_eq_splitOn (text : List Char) : segments text = text.splitOn '\n' := by
  induction text with
  | nil => rfl
  | cons c rest ih =>
    have pieces := List.splitOn_ne_nil '\n' rest
    rw [segments, List.splitOn_cons_eq_if_modifyHead, ih]
    by_cases newline : c = '\n'
    · simp [newline]
    · cases split : rest.splitOn '\n' with
      | nil => exact absurd split pieces
      | cons first others => simp [newline]

/-- Lines with the newlines that end them. -/
def ended (lines : List (List Char)) : List Char := lines.flatMap (· ++ ['\n'])

/-- The text consists of lines that newlines end, and of what stands in the line behind them. -/
structure Behind (lines : List (List Char)) (tail text : List Char) : Prop where
  parts : text = ended lines ++ tail
  lines_clear : ∀ line ∈ lines, '\n' ∉ line
  tail_clear : '\n' ∉ tail

theorem exists_behind (text : List Char) : ∃ lines tail, Behind lines tail text := by
  induction text with
  | nil => exact ⟨[], [], rfl, by simp, by simp⟩
  | cons c rest ih =>
    obtain ⟨lines, tail, rfl, linesClear, tailClear⟩ := ih
    by_cases newline : c = '\n'
    · subst newline
      exact ⟨[] :: lines, tail, by simp [ended], by simpa using linesClear, tailClear⟩
    · cases lines with
      | nil =>
        exact ⟨[], c :: tail, by simp [ended], by simp, by simp [Ne.symm newline, tailClear]⟩
      | cons line lines =>
        refine ⟨(c :: line) :: lines, tail, by simp [ended], ?_, tailClear⟩
        simpa [Ne.symm newline] using linesClear

namespace Behind

theorem count (behind : Behind lines tail text) : text.count '\n' = lines.length := by
  obtain ⟨rfl, linesClear, tailClear⟩ := behind
  rw [List.count_append, List.count_eq_zero.mpr tailClear, Nat.add_zero]
  induction lines with
  | nil => rfl
  | cons line lines ih =>
    obtain ⟨lineClear, linesClear⟩ := List.forall_mem_cons.mp linesClear
    have others := ih linesClear
    rw [ended] at others ⊢
    simp [others, List.count_eq_zero.mpr lineClear]

/-- Back from the end, the line goes as far as to the newline in front of it. -/
theorem takeWhile (behind : Behind lines tail text) :
    text.reverse.takeWhile (· != '\n') = tail.reverse := by
  obtain ⟨rfl, -, tailClear⟩ := behind
  rw [List.reverse_append, List.takeWhile_append_of_pos]
  · rcases List.eq_nil_or_concat lines with rfl | ⟨others, last, rfl⟩
    · simp [ended]
    · simp [ended]
  · intro c member
    have other : c ≠ '\n' := fun same => tailClear (same ▸ List.mem_reverse.mp member)
    simpa using other

theorem splitOn_append (behind : Behind lines tail front) {first : List Char}
    {others : List (List Char)} (split : rest.splitOn '\n' = first :: others) :
    (front ++ rest).splitOn '\n' = lines ++ (tail ++ first) :: others := by
  obtain ⟨rfl, linesClear, tailClear⟩ := behind
  induction lines with
  | nil =>
    induction tail with
    | nil => simpa [ended] using split
    | cons c tail ih =>
      obtain ⟨other, tailClear⟩ := not_or.mp (mt List.mem_cons.mpr tailClear)
      have inner := ih tailClear
      simp only [ended, List.flatMap_nil, List.nil_append] at inner
      simp [ended, List.splitOn_cons_eq_if_modifyHead, inner, Ne.symm other]
  | cons line lines ih =>
    obtain ⟨lineClear, linesClear⟩ := List.forall_mem_cons.mp linesClear
    have inner := ih linesClear
    rw [ended] at inner ⊢
    simp only [List.flatMap_cons, List.append_assoc, List.cons_append, List.nil_append] at inner ⊢
    rw [List.splitOn_append_cons_self_of_not_mem lineClear, inner]

end Behind

/-! ### Lines and columns -/

/-- The offset at which a piece of the text begins, behind so many others with their newlines. -/
def startOf (text : List Char) (number : Nat) : Nat :=
  byteSize (ended ((text.splitOn '\n').take number))

/-- The offset is reached in a line of the text, whose characters are those of `piece`, behind all
of these that are before the column. Both are counted from one. -/
structure Marks (text : List Char) (offset line column : Nat) (piece : List Char) : Prop where
  line_pos : 0 < line
  column_pos : 0 < column
  listed : (text.splitOn '\n')[line - 1]? = some piece
  within : column - 1 ≤ piece.length
  offset : offset = startOf text (line - 1) + byteSize (piece.take (column - 1))

theorem Marks.unique {offset offset' line column : Nat} {piece piece' : List Char}
    (first : Marks text offset line column piece) (second : Marks text offset' line column piece') :
    offset = offset' := by
  obtain rfl := Option.some.inj (first.listed.symm.trans second.listed)
  rw [first.offset, second.offset]

theorem lineColumn_eq {front : List Char} {place : Cursor}
    (before : Cursor.Passes ⟨0, text⟩ front place) : lineColumn text place.offset =
      (front.count '\n' + 1, (front.reverse.takeWhile (· != '\n')).length + 1) := by
  have parts : text = front ++ place.rest := before.rest_eq
  have offset : place.offset = byteSize front := by simpa using before.offset_eq
  have inside : min (byteSize front) (byteSize (front ++ place.rest)) = byteSize front := by
    rw [byteSize_append]
    omega
  rw [parts, offset, lineColumn, Text.before, inside, splitAt?_append]

theorem Behind.lineColumn {front : List Char} {place : Cursor} (behind : Behind lines tail front)
    (before : Cursor.Passes ⟨0, text⟩ front place) :
    lineColumn text place.offset = (lines.length + 1, tail.length + 1) := by
  rw [lineColumn_eq before, behind.count, behind.takeWhile, List.length_reverse]

/-- The line and the column of a place mark it. -/
theorem lineColumn_marks {place : Cursor} (inside : place.In text) :
    ∃ piece, Marks text place.offset (lineColumn text place.offset).1
      (lineColumn text place.offset).2 piece := by
  obtain ⟨front, before⟩ := inside
  obtain ⟨lines, tail, behind⟩ := exists_behind front
  obtain ⟨first, others, split⟩ :=
    List.exists_cons_of_ne_nil (List.splitOn_ne_nil '\n' place.rest)
  have parts : text = front ++ place.rest := before.rest_eq
  have pieces : text.splitOn '\n' = lines ++ (tail ++ first) :: others := by
    rw [parts, behind.splitOn_append split]
  have offset : place.offset = byteSize (ended lines) + byteSize tail := by
    rw [before.offset_eq, behind.parts, byteSize_append, Nat.zero_add]
  rw [behind.lineColumn before]
  refine ⟨tail ++ first, Nat.succ_pos _, Nat.succ_pos _, by simp [pieces], by simp, ?_⟩
  simp [startOf, pieces, offset]

/-- A later place is in a later line, or in a later column of the same one. -/
theorem lineColumn_lt {place other : Cursor} (inside : place.In text) (inside' : other.In text)
    (later : place.offset < other.offset) :
    toLex (lineColumn text place.offset) < toLex (lineColumn text other.offset) := by
  obtain ⟨word, passes⟩ := inside.exists_passes inside' later.le
  have some : word ≠ [] := mt passes.word_eq_nil_iff.mp later.ne'
  obtain ⟨front, before⟩ := inside
  rw [lineColumn_eq before, lineColumn_eq (before.trans passes), Prod.Lex.toLex_lt_toLex,
    List.count_append]
  by_cases newline : '\n' ∈ word
  · have more := List.count_pos_iff.mpr newline
    exact .inl (by omega)
  · have clear : ∀ c ∈ word.reverse, (c != '\n') = true := by
      intro c member
      have other : c ≠ '\n' := fun same => newline (same ▸ List.mem_reverse.mp member)
      simpa using other
    refine .inr ⟨by rw [List.count_eq_zero.mpr newline, Nat.add_zero], ?_⟩
    rw [List.reverse_append, List.takeWhile_append_of_pos clear]
    have longer := List.length_pos_iff.mpr some
    simp only [List.length_append, List.length_reverse]
    omega

/-! ### Lines without their endings -/

theorem lines_eq {others : List (List Char)} {last : List Char}
    (split : text.splitOn '\n' = others ++ [last]) :
    Text.lines text = others.map dropReturn ++ if last = [] then [] else [last] := by
  rw [Text.lines, segments_eq_splitOn, split]
  cases last <;> simp

end Text

namespace Diagnostic

/-- The line that is shown is a piece of the text, without the carriage return of its ending. -/
theorem shownLine_eq {text piece : List Char} {number : Nat}
    (listed : (text.splitOn '\n')[number]? = some piece) :
    shownLine text (number + 1) =
      if number + 1 < (text.splitOn '\n').length ∧ piece.getLast? = some '\r' then piece.dropLast
      else piece := by
  rcases List.eq_nil_or_concat (text.splitOn '\n') with none | ⟨others, last, split⟩
  · exact absurd none (List.splitOn_ne_nil _ _)
  · rw [List.concat_eq_append] at split
    rw [split] at listed
    rw [shownLine, Text.lines_eq split, split]
    by_cases ended : number < others.length
    · rw [List.getElem?_append_left ended] at listed
      obtain ⟨_, rfl⟩ := List.getElem?_eq_some_iff.mp listed
      rw [Nat.add_sub_cancel, List.getD_eq_getElem?_getD,
        List.getElem?_append_left (by simpa using ended)]
      simp [ended, Text.dropReturn]
    · have bound := (List.getElem?_eq_some_iff.mp listed).1
      simp only [List.length_append, List.length_singleton] at bound
      obtain rfl : number = others.length := by omega
      simp only [List.getElem?_concat_length, Option.some.injEq] at listed
      subst listed
      cases last <;> simp

/-- A text whose first piece is empty, and not its only one, begins with a newline. -/
theorem begins_newline {rest : List Char} {others : List (List Char)}
    (split : rest.splitOn '\n' = [] :: others) (more : others ≠ []) :
    rest.head? = some '\n' := by
  cases rest with
  | nil => simp_all
  | cons c rest =>
    rw [List.splitOn_cons_eq_if_modifyHead] at split
    split at split
    next newline => simpa using newline
    next =>
      cases pieces : rest.splitOn '\n' with
      | nil => exact absurd pieces (List.splitOn_ne_nil _ _)
      | cons first others => simp [pieces] at split

/-- A character that is not part of a line ending is shown in its column. -/
theorem shownLine_at {text rest : List Char} {place : Cursor} {c : Char} (inside : place.In text)
    (here : place.rest = c :: rest) (other : c ≠ '\n')
    (single : c = '\r' → rest.head? ≠ some '\n') :
    (shownLine text (Text.lineColumn text place.offset).1)[
      (Text.lineColumn text place.offset).2 - 1]? = some c := by
  obtain ⟨front, before⟩ := inside
  obtain ⟨lines, tail, behind⟩ := Text.exists_behind front
  obtain ⟨first, others, split⟩ := List.exists_cons_of_ne_nil (List.splitOn_ne_nil '\n' rest)
  have pieces : (c :: rest).splitOn '\n' = (c :: first) :: others := by
    simp [List.splitOn_cons_eq_if_modifyHead, split, other]
  have parts : text = front ++ c :: rest := here ▸ before.rest_eq
  have whole : text.splitOn '\n' = lines ++ (tail ++ c :: first) :: others := by
    rw [parts, behind.splitOn_append pieces]
  have listed : (text.splitOn '\n')[lines.length]? = some (tail ++ c :: first) := by simp [whole]
  rw [behind.lineColumn before, shownLine_eq listed, whole]
  dsimp only
  split
  next dropped =>
    obtain ⟨more, last⟩ := dropped
    -- What is dropped stands behind the character, which would end the line otherwise.
    have longer : first ≠ [] := by
      rintro rfl
      refine single (by simpa using last) (begins_newline split ?_)
      rintro rfl
      simp at more
    obtain ⟨d, first, rfl⟩ := List.exists_cons_of_ne_nil longer
    simp
  next => simp

/-! ### Labels -/

/-- The row of a report that shows a line of the source, with its number in front. -/
def sourceRow (line : Nat) (shown : List Char) : String :=
  toString line ++ " | " ++ String.ofList shown

/-- What stands in front of the carets in the row below. -/
def indent (line column : Nat) : String :=
  spaces (toString line).length ++ " | " ++ spaces (column - 1)

theorem length_indent (line column : Nat) : (indent line column).length =
    ((toString line).toList ++ " | ".toList).length + (column - 1) := by
  have margin (count : Nat) : (spaces count).length = count := by simp [spaces]
  rw [indent, String.length_append, String.length_append, margin, margin, List.length_append,
    String.length_toList, String.length_toList]

/-- A character of the line is above the end of an indentation by its column. -/
theorem sourceRow_at {line column : Nat} {shown : List Char} {c : Char}
    (listed : shown[column - 1]? = some c) :
    (sourceRow line shown).toList[(indent line column).length]? = some c := by
  rw [sourceRow, length_indent, String.toList_append, String.toList_append,
    List.getElem?_append_right (Nat.le_add_right _ _), Nat.add_sub_cancel_left]
  simpa using listed

theorem exists_carets (text : List Char) (span : Span) : ∃ carets,
    String.ofList (List.replicate (caretCount text span) '^') = "^" ++ carets := by
  have some : 0 < caretCount text span := by
    rw [caretCount]
    split
    · exact Nat.one_pos
    · exact Nat.lt_of_lt_of_le Nat.one_pos (Nat.le_max_left _ _)
  obtain ⟨count, same⟩ := Nat.exists_eq_succ_of_ne_zero some.ne'
  refine ⟨String.ofList (List.replicate count '^'), ?_⟩
  rw [same, List.replicate_succ, ← List.singleton_append, String.ofList_append]

/-- What is written for a label of a source, which starts in the given line and column. -/
theorem renderLabel_eq {source : Source} {label : Label} {line column : Nat}
    (found : Text.lineColumn source.text.toList label.span.start = (line, column))
    (colors : Bool) :
    ∃ carets, renderLabel colors (some source) label =
      spaces (toString line).length ++ "--> " ++ source.name ++ ":" ++ toString line ++ ":" ++
        toString column ++ "\n" ++ spaces (toString line).length ++ " |\n" ++
        sourceRow line (shownLine source.text.toList line) ++ "\n" ++
        indent line column ++ paint colors red ("^" ++ carets ++ " " ++ label.message) ++ "\n" := by
  obtain ⟨carets, row⟩ := exists_carets source.text.toList label.span
  refine ⟨carets, ?_⟩
  -- Lean takes too long to state the equations of this definition.
  delta renderLabel
  dsimp only
  simp only [found, row, sourceRow, indent, String.append_assoc]

/-- How a label is written that starts at a place of the source, in the line that consists of the
characters of `piece`. -/
structure Points (colors : Bool) (source : Source) (label : Label) (place : Cursor)
    (line column : Nat) (piece : List Char) : Prop where
  marks : Text.Marks source.text.toList place.offset line column piece
  /-- Another place has another line or column, and a later one has later ones. -/
  ordered : ∀ other : Cursor, other.In source.text.toList →
    (Text.lineColumn source.text.toList other.offset = (line, column) → other = place) ∧
      (place.offset < other.offset →
        toLex (line, column) < toLex (Text.lineColumn source.text.toList other.offset))
  /-- The row of the source shows the piece, but for the carriage return of a line ending. Below it
  there is at least one caret. -/
  written : ∃ shown carets,
    shown = (if line < (source.text.toList.splitOn '\n').length ∧ piece.getLast? = some '\r' then
      piece.dropLast else piece) ∧
    renderLabel colors (some source) label =
      spaces (toString line).length ++ "--> " ++ source.name ++ ":" ++ toString line ++ ":" ++
        toString column ++ "\n" ++ spaces (toString line).length ++ " |\n" ++
        sourceRow line shown ++ "\n" ++
        indent line column ++ paint colors red ("^" ++ carets ++ " " ++ label.message) ++ "\n" ∧
    -- The first caret is below the character at the place, if that does not end a line.
    ∀ c rest, place.rest = c :: rest → c ≠ '\n' → (c = '\r' → rest.head? ≠ some '\n') →
      (sourceRow line shown).toList[(indent line column).length]? = some c

/-- Wherever a label starts in a text, the line and the column that are written are those of its
place among the pieces between newlines. They determine the place and grow with it. The piece is
shown without the ending of its line, and the first caret is below the character at the place unless
this ends the line. -/
theorem renderLabel_points {source : Source} {label : Label} {place : Cursor}
    (inside : place.In source.text.toList) (starts : label.span.start = place.offset)
    (colors : Bool) :
    ∃ line column piece, Text.lineColumn source.text.toList place.offset = (line, column) ∧
      Points colors source label place line column piece := by
  obtain ⟨piece, marks⟩ := Text.lineColumn_marks inside
  have above := fun c rest => @shownLine_at source.text.toList rest place c inside
  have later := fun other : Cursor => @Text.lineColumn_lt source.text.toList place other inside
  rcases found : Text.lineColumn source.text.toList place.offset with ⟨line, column⟩
  rw [found] at marks
  simp only [found] at above later
  have shown := shownLine_eq marks.listed
  rw [Nat.sub_add_cancel marks.line_pos] at shown
  refine ⟨line, column, piece, rfl, marks,
    fun other inside' => ⟨fun same => ?same, later other inside'⟩, ?written⟩
  case same =>
    obtain ⟨_, marks'⟩ := Text.lineColumn_marks inside'
    rw [same] at marks'
    exact inside'.eq_of_offset inside (marks'.unique marks)
  case written =>
    obtain ⟨carets, written⟩ := renderLabel_eq (starts ▸ found) colors
    exact ⟨_, carets, shown, written,
      fun c rest here other single => sourceRow_at (above c rest here other single)⟩

/-- The second line of a text, which ends in a carriage return and a newline, with a label at its
last letter. -/
theorem renderLabel_points_return :
    (⟨4, "é\r\n".toList⟩ : Cursor).In "à\nné\r\n".toList ∧
      shownLine "à\nné\r\n".toList 2 = "né".toList ∧
      ∃ piece, Points false ⟨"script", "à\nné\r\n"⟩ ⟨⟨4, 6⟩, "expected a name"⟩
        ⟨4, "é\r\n".toList⟩ 2 2 piece := by
  have inside : (⟨4, "é\r\n".toList⟩ : Cursor).In "à\nné\r\n".toList :=
    ⟨['à', '\n', 'n'], by decide, by decide⟩
  have place : Text.lineColumn "à\nné\r\n".toList 4 = (2, 2) := by decide
  obtain ⟨line, column, piece, found, points⟩ := @renderLabel_points ⟨"script", "à\nné\r\n"⟩
    ⟨⟨4, 6⟩, "expected a name"⟩ ⟨4, "é\r\n".toList⟩ inside rfl false
  obtain ⟨rfl, rfl⟩ := Prod.mk.inj (place.symm.trans found)
  exact ⟨inside, by decide, piece, points⟩

end Diagnostic
end SentenceGrammar
