import SentenceGrammar.Proofs.PlaceholderGrammar

/-!
# The language of patterns

A pattern is written as characters that stand for themselves, backslashes with a character behind
them, and placeholders. Reading a pattern succeeds just on these texts, and the items are the
placeholders and the longest stretches of literal text between them.
-/
namespace SentenceGrammar

/-- Put literal text in front of the parts. It becomes one with literal text that is there. -/
def glue : List Char → List Part → List Part
  | [], parts => parts
  | text, .literal more :: rest => .literal (text ++ more) :: rest
  | text, parts => .literal text :: parts

/-- The character is special outside of placeholders. -/
def Special (c : Char) : Prop := c = '{' ∨ c = '}' ∨ c = '\\'

/-- The written forms of a row of parts. -/
inductive Written : List Char → List Part → Prop where
  | nil : Written [] []
  | plain {c : Char} {rest : List Char} {parts : List Part} (ordinary : ¬Special c)
      (others : Written rest parts) : Written (c :: rest) (glue [c] parts)
  /-- A backslash makes a special character an ordinary one. -/
  | escaped {c : Char} {rest : List Char} {parts : List Part} (special : Special c)
      (others : Written rest parts) : Written ('\\' :: c :: rest) (glue [c] parts)
  /-- In front of all other characters a backslash stands for itself. -/
  | kept {c : Char} {rest : List Char} {parts : List Part} (ordinary : ¬Special c)
      (others : Written rest parts) : Written ('\\' :: c :: rest) (glue ['\\', c] parts)
  /-- So it does at the end. -/
  | last : Written ['\\'] [.literal ['\\']]
  | slot {text rest : List Char} {slot : Part} {parts : List Part} (placed : SlotText text slot)
      (others : Written rest parts) : Written (text ++ rest) (slot :: parts)

theorem SlotText.exists_brace {text : List Char} {slot : Part} (placed : SlotText text slot) :
    ∃ inside, text = '{' :: inside := by
  cases placed
  exact ⟨_, rfl⟩

/-- A placeholder takes at least one character. -/
theorem SlotText.shorter {text : List Char} {slot : Part} (placed : SlotText text slot)
    (rest : List Char) : rest.length < (text ++ rest).length := by
  obtain ⟨inside, rfl⟩ := placed.exists_brace
  rw [List.length_append, List.length_cons]
  omega

theorem glue_glue (front back : List Char) (parts : List Part) :
    glue front (glue back parts) = glue (front ++ back) parts := by
  cases front with
  | nil => rfl
  | cons c front =>
    cases back with
    | nil => simp [glue]
    | cons d back =>
      match parts with
      | [] => rfl
      | .literal more :: rest => simp [glue]
      | .slot .. :: rest => rfl

theorem glue_ne_nil {text : List Char} {parts : List Part} (some : text ≠ []) :
    glue text parts ≠ [] := by
  obtain ⟨c, text, rfl⟩ := List.exists_cons_of_ne_nil some
  match parts with
  | [] => nofun
  | .literal _ :: _ => nofun
  | .slot .. :: _ => nofun

/-- A placeholder is no literal text, so none becomes one with it. -/
theorem glue_slot {text inside : List Char} {slot : Part} (placed : SlotText inside slot)
    (parts : List Part) : glue text (slot :: parts) =
      (if text = [] then [] else [.literal text]) ++ slot :: parts := by
  cases placed
  cases text <;> rfl

theorem glue_nil (text : List Char) : glue text [] = if text = [] then [] else [.literal text] := by
  cases text <;> rfl

/-- What a text that is not empty is written from, by its first character. -/
theorem Written.inversion {c : Char} {rest : List Char} {parts : List Part}
    (written : Written (c :: rest) parts) :
    (¬Special c ∧ ∃ others, Written rest others ∧ glue [c] others = parts) ∨
    (c = '\\' ∧ ∃ d more, rest = d :: more ∧
      ((Special d ∧ ∃ others, Written more others ∧ glue [d] others = parts) ∨
        (¬Special d ∧ ∃ others, Written more others ∧ glue ['\\', d] others = parts))) ∨
    (c = '\\' ∧ rest = [] ∧ parts = [.literal ['\\']]) ∨
    (c = '{' ∧ ∃ text more slot others, c :: rest = text ++ more ∧ SlotText text slot ∧
      Written more others ∧ parts = slot :: others) := by
  -- The text of a placeholder is no constructor, so the cases are told apart by this equation.
  generalize same : c :: rest = whole at written
  cases written with
  | nil => cases same
  | plain ordinary others =>
    obtain ⟨rfl, rfl⟩ := List.cons.inj same
    exact .inl ⟨ordinary, _, others, rfl⟩
  | escaped special others =>
    obtain ⟨rfl, rfl⟩ := List.cons.inj same
    exact .inr (.inl ⟨rfl, _, _, rfl, .inl ⟨special, _, others, rfl⟩⟩)
  | kept ordinary others =>
    obtain ⟨rfl, rfl⟩ := List.cons.inj same
    exact .inr (.inl ⟨rfl, _, _, rfl, .inr ⟨ordinary, _, others, rfl⟩⟩)
  | last =>
    obtain ⟨rfl, rfl⟩ := List.cons.inj same
    exact .inr (.inr (.inl ⟨rfl, rfl, rfl⟩))
  | slot placed others =>
    obtain ⟨inside, rfl⟩ := placed.exists_brace
    exact .inr (.inr (.inr ⟨(List.cons.inj same).1, _, _, _, _, rfl, placed, others, rfl⟩))

theorem Written.nil_iff {parts : List Part} : Written [] parts ↔ parts = [] := by
  constructor
  · intro written
    generalize same : [] = whole at written
    cases written with
    | nil => rfl
    | plain => cases same
    | escaped => cases same
    | kept => cases same
    | last => cases same
    | slot placed =>
      obtain ⟨inside, rfl⟩ := placed.exists_brace
      cases same
  · rintro rfl
    exact .nil

/-- Only nothing is written from no parts. -/
theorem Written.eq_nil {text : List Char} {parts : List Part} (written : Written text parts)
    (none : parts = []) : text = [] := by
  cases written with
  | nil => rfl
  | plain => exact absurd none (glue_ne_nil (by simp))
  | escaped => exact absurd none (glue_ne_nil (by simp))
  | kept => exact absurd none (glue_ne_nil (by simp))
  | last => cases none
  | slot => cases none

theorem special_backslash : Special '\\' := .inr (.inr rfl)

theorem Written.plain_iff {c : Char} {rest : List Char} {parts : List Part} (ordinary : ¬Special c) :
    Written (c :: rest) parts ↔ ∃ others, Written rest others ∧ glue [c] others = parts := by
  constructor
  · intro written
    rcases written.inversion with ⟨-, others⟩ | ⟨rfl, -⟩ | ⟨rfl, -⟩ | ⟨rfl, -⟩
    · exact others
    · exact absurd special_backslash ordinary
    · exact absurd special_backslash ordinary
    · exact absurd (.inl rfl) ordinary
  · rintro ⟨others, written, rfl⟩
    exact .plain ordinary written

theorem Written.backslash_iff {c : Char} {rest : List Char} {parts : List Part} :
    Written ('\\' :: c :: rest) parts ↔ ∃ others, Written rest others ∧
      (Special c ∧ glue [c] others = parts ∨ ¬Special c ∧ glue ['\\', c] others = parts) := by
  constructor
  · intro written
    rcases written.inversion with ⟨ordinary, -⟩ | ⟨-, d, more, same, behind⟩ | ⟨-, ended, -⟩ |
      ⟨brace, -⟩
    · exact absurd special_backslash ordinary
    · obtain ⟨rfl, rfl⟩ := List.cons.inj same
      rcases behind with ⟨special, others, written, glued⟩ | ⟨ordinary, others, written, glued⟩
      · exact ⟨others, written, .inl ⟨special, glued⟩⟩
      · exact ⟨others, written, .inr ⟨ordinary, glued⟩⟩
    · cases ended
    · exact absurd brace (by decide)
  · rintro ⟨others, written, ⟨special, rfl⟩ | ⟨ordinary, rfl⟩⟩
    · exact .escaped special written
    · exact .kept ordinary written

theorem Written.escaped_iff {c : Char} {rest : List Char} {parts : List Part} (special : Special c) :
    Written ('\\' :: c :: rest) parts ↔ ∃ others, Written rest others ∧ glue [c] others = parts := by
  simp [backslash_iff, special]

theorem Written.kept_iff {c : Char} {rest : List Char} {parts : List Part} (ordinary : ¬Special c) :
    Written ('\\' :: c :: rest) parts ↔
      ∃ others, Written rest others ∧ glue ['\\', c] others = parts := by
  simp [backslash_iff, ordinary]

theorem Written.last_iff {parts : List Part} :
    Written ['\\'] parts ↔ parts = [.literal ['\\']] := by
  constructor
  · intro written
    rcases written.inversion with ⟨ordinary, -⟩ | ⟨-, d, more, same, -⟩ | ⟨-, -, only⟩ | ⟨brace, -⟩
    · exact absurd special_backslash ordinary
    · cases same
    · exact only
    · exact absurd brace (by decide)
  · rintro rfl
    exact .last

theorem Written.slot_iff {inside : List Char} {parts : List Part} :
    Written ('{' :: inside) parts ↔ ∃ text rest slot others, '{' :: inside = text ++ rest ∧
      SlotText text slot ∧ Written rest others ∧ parts = slot :: others := by
  constructor
  · intro written
    rcases written.inversion with ⟨ordinary, -⟩ | ⟨backslash, -⟩ | ⟨backslash, -⟩ | ⟨-, slot⟩
    · exact absurd (.inl rfl) ordinary
    · exact absurd backslash (by decide)
    · exact absurd backslash (by decide)
    · exact slot
  · rintro ⟨text, rest, slot, others, same, placed, written, rfl⟩
    exact same ▸ .slot placed written

theorem Written.not_close {rest : List Char} {parts : List Part} : ¬Written ('}' :: rest) parts := by
  intro written
  rcases written.inversion with ⟨ordinary, -⟩ | ⟨backslash, -⟩ | ⟨backslash, -⟩ | ⟨brace, -⟩
  · exact ordinary (.inr (.inl rfl))
  · exact absurd backslash (by decide)
  · exact absurd backslash (by decide)
  · exact absurd brace (by decide)

/-! ### Parts that can be told apart -/

/-- No literal text is empty or next to another one, and every placeholder has a written form. -/
inductive Tidy : List Part → Prop where
  | nil : Tidy []
  | last {text : List Char} (some : text ≠ []) : Tidy [.literal text]
  | literal {text inside : List Char} {slot : Part} {parts : List Part} (some : text ≠ [])
      (placed : SlotText inside slot) (others : Tidy parts) : Tidy (.literal text :: slot :: parts)
  | slot {inside : List Char} {slot : Part} {parts : List Part} (placed : SlotText inside slot)
      (others : Tidy parts) : Tidy (slot :: parts)

theorem Tidy.glue {text : List Char} {parts : List Part} (some : text ≠ []) (tidy : Tidy parts) :
    Tidy (glue text parts) := by
  obtain ⟨c, text, rfl⟩ := List.exists_cons_of_ne_nil some
  cases tidy with
  | nil => exact .last some
  | last => exact .last (by simp)
  | literal _ placed others => exact .literal (by simp) placed others
  | slot placed others =>
    rw [glue_slot placed]
    exact .literal some placed others

theorem Written.tidy {text : List Char} {parts : List Part} (written : Written text parts) :
    Tidy parts := by
  induction written with
  | nil => exact .nil
  | plain _ _ ih => exact ih.glue (by simp)
  | escaped _ _ ih => exact ih.glue (by simp)
  | kept _ _ ih => exact ih.glue (by simp)
  | last => exact .last (by simp)
  | slot placed _ ih => exact .slot placed ih

/-! ### Reading literal text -/

namespace Pattern

/-- Literal text ends with the text or in front of a brace. -/
theorem go_stops (text : List Char) : (readLiteral.go text).2.2 = [] ∨
    ∃ c rest, (c = '{' ∨ c = '}') ∧ (readLiteral.go text).2.2 = c :: rest := by
  fun_induction readLiteral.go text with
  | case1 => exact .inl rfl
  | case2 => exact .inl rfl
  | case3 c rest text passed left same special ih => rwa [same] at ih
  | case4 c rest text passed left same ordinary ih => rwa [same] at ih
  | case5 c rest single double brace => exact .inr ⟨c, rest, brace, rfl⟩
  | case6 c rest single double ordinary text passed left same ih => rwa [same] at ih

-- What is in front of a text comes in front of the literal text that the text begins with.
private theorem written_iff_behind {whole rest left front text : List Char} {parts : List Part}
    (first : Written whole parts ↔ ∃ between, Written rest between ∧ glue front between = parts)
    (behind : ∀ {between}, Written rest between ↔
      ∃ others, Written left others ∧ glue text others = between) :
    Written whole parts ↔ ∃ others, Written left others ∧ glue (front ++ text) others = parts := by
  rw [first]
  constructor
  · rintro ⟨between, rest, rfl⟩
    obtain ⟨others, left, rfl⟩ := behind.mp rest
    exact ⟨others, left, (glue_glue front text others).symm⟩
  · rintro ⟨others, written, rfl⟩
    exact ⟨glue text others, behind.mpr ⟨others, written, rfl⟩, glue_glue front text others⟩

/-- The parts of a text are the literal text in front, if there is some, and the parts of what is
left behind it. -/
theorem written_iff_go {text : List Char} {parts : List Part} : Written text parts ↔
    ∃ others, Written (readLiteral.go text).2.2 others ∧
      glue (readLiteral.go text).1 others = parts := by
  -- In every case one step of the scanner is one constructor in front.
  fun_induction readLiteral.go text generalizing parts with
  | case1 => simp [glue]
  | case2 => simp [Written.last_iff, Written.nil_iff, glue, eq_comm]
  | case3 c rest text passed left same special ih =>
    simp only [same] at ih
    exact written_iff_behind (Written.escaped_iff special) ih
  | case4 c rest text passed left same ordinary ih =>
    simp only [same] at ih
    exact written_iff_behind (Written.kept_iff ordinary) ih
  | case5 c rest single double brace => simp [glue]
  | case6 c rest single double ordinary text passed left same ih =>
    simp only [same] at ih
    refine written_iff_behind (Written.plain_iff ?_) ih
    rintro (brace | brace | rfl)
    · exact ordinary (.inl brace)
    · exact ordinary (.inr brace)
    · cases rest with
      | nil => exact single rfl rfl
      | cons d more => exact double d more rfl rfl

theorem go_length (text : List Char) : (readLiteral.go text).2.2.length ≤ text.length := by
  fun_induction readLiteral.go text with
  | case1 => exact Nat.le_refl 0
  | case2 => exact Nat.zero_le 1
  | case3 c rest text passed left same special ih =>
    rw [same] at ih
    exact Nat.le_add_right_of_le (Nat.le_add_right_of_le ih)
  | case4 c rest text passed left same ordinary ih =>
    rw [same] at ih
    exact Nat.le_add_right_of_le (Nat.le_add_right_of_le ih)
  | case5 => exact Nat.le_refl _
  | case6 c rest single double ordinary text passed left same ih =>
    rw [same] at ih
    exact Nat.le_add_right_of_le ih

/-! ### Reading items -/

variable {cursor : Cursor}

/-- The literal at a cursor, if there is one. -/
def literalItems (cursor : Cursor) : List Item :=
  if (readLiteral cursor).1 = [] then []
  else [.literal (String.ofList (readLiteral cursor).1) (cursor.spanTo (readLiteral cursor).2)]

theorem literalItems_parts (cursor : Cursor) : (literalItems cursor).map Item.part =
    if (readLiteral cursor).1 = [] then [] else [.literal (readLiteral cursor).1] := by
  rw [literalItems]
  split <;> simp [Item.part]

theorem readItems_ended (ended : (readLiteral cursor).2.rest = []) (steps : Nat) :
    readItems (steps + 1) cursor = .ok (literalItems cursor) := by
  rw [readItems]
  dsimp only
  rw [ended]
  rfl

theorem readItems_opened {inside : List Char} (opened : (readLiteral cursor).2.rest = '{' :: inside)
    (steps : Nat) : readItems (steps + 1) cursor = (do
      let (slot, behind) ← readPlaceholder (readLiteral cursor).2
      return literalItems cursor ++ .placeholder slot :: (← readItems steps behind)) := by
  rw [readItems]
  dsimp only
  rw [opened]
  rfl

theorem readItems_closed {rest : List Char} (closed : (readLiteral cursor).2.rest = '}' :: rest)
    (steps : Nat) : readItems (steps + 1) cursor = .error (.unmatchedClose,
      (readLiteral cursor).2.spanTo ((readLiteral cursor).2.past ['}'] rest)) := by
  rw [readItems]
  dsimp only
  rw [closed]
  rfl

/-- A placeholder and what is behind it are read as they are written, if this holds of everything
shorter. -/
theorem readItems_opened_iff {steps : Nat} {inside : List Char} {parts : List Part}
    (opened : (readLiteral cursor).2.rest = '{' :: inside) (enough : ('{' :: inside).length ≤ steps)
    (behind : ∀ {later : Cursor} {parts : List Part}, later.rest.length < steps →
      ((∃ items, readItems steps later = .ok items ∧ items.map Item.part = parts) ↔
        Written later.rest parts)) :
    (∃ items, readItems (steps + 1) cursor = .ok items ∧ items.map Item.part = parts) ↔
      ∃ others, Written ('{' :: inside) others ∧ glue (readLiteral cursor).1 others = parts := by
  rw [readItems_opened opened]
  constructor
  · rintro ⟨items, read, rfl⟩
    obtain ⟨⟨slot, later⟩, placed, read⟩ := exists_of_bind_ok read
    obtain ⟨others, rest, same⟩ := exists_of_bind_ok read
    obtain rfl := Except.ok.inj same
    obtain ⟨text, written, front⟩ := readPlaceholder_sound placed opened
    have whole : '{' :: inside = text ++ later.rest := opened.symm.trans front
    have shorter : later.rest.length < steps :=
      (written.shorter later.rest).trans_le (whole ▸ enough)
    have othersWritten := (behind shorter).mp ⟨others, rest, rfl⟩
    refine ⟨_, Written.slot_iff.mpr ⟨text, _, _, _, whole, written, othersWritten, rfl⟩, ?_⟩
    rw [glue_slot written, List.map_append, literalItems_parts, List.map_cons]
  · rintro ⟨others, written, rfl⟩
    obtain ⟨text, rest, slot, more, whole, placed, written, rfl⟩ := Written.slot_iff.mp written
    obtain ⟨filled, stop, read, rfl, rfl⟩ := readPlaceholder_complete placed (opened.trans whole)
    have shorter : stop.rest.length < steps := (placed.shorter stop.rest).trans_le (whole ▸ enough)
    obtain ⟨items, othersRead, rfl⟩ := (behind shorter).mpr written
    refine ⟨literalItems cursor ++ .placeholder filled :: items, ?_, ?_⟩
    · rw [read]
      dsimp only [bind, Except.bind]
      rw [othersRead]
      rfl
    · rw [glue_slot placed, List.map_append, literalItems_parts, List.map_cons]

/-- What is left from a cursor on is read as it is written. -/
theorem readItems_iff_written {steps : Nat} {parts : List Part}
    (enough : cursor.rest.length < steps) :
    (∃ items, readItems steps cursor = .ok items ∧ items.map Item.part = parts) ↔
      Written cursor.rest parts := by
  -- A step is spent on each placeholder, which takes a character, so the steps outlast the text.
  induction steps generalizing cursor parts with
  | zero => exact absurd enough (Nat.not_lt_zero _)
  | succ steps ih =>
    have left : (readLiteral cursor).2.rest.length ≤ steps :=
      (go_length cursor.rest).trans (Nat.le_of_lt_succ enough)
    rw [written_iff_go]
    change _ ↔ ∃ others, Written (readLiteral cursor).2.rest others ∧
      glue (readLiteral cursor).1 others = parts
    have stops : (readLiteral cursor).2.rest = [] ∨ ∃ c rest, (c = '{' ∨ c = '}') ∧
      (readLiteral cursor).2.rest = c :: rest := go_stops cursor.rest
    rcases stops with ended | ⟨c, inside, rfl | rfl, found⟩
    · rw [readItems_ended ended, ended]
      simp [Written.nil_iff, literalItems_parts, glue_nil]
    · rw [found]
      exact readItems_opened_iff found (found ▸ left) ih
    · rw [found, readItems_closed found]
      constructor
      · rintro ⟨items, read, -⟩
        cases read
      · rintro ⟨others, written, -⟩
        exact absurd written Written.not_close

theorem exists_read_iff {source : String} {p : List Item → Prop} :
    (∃ pattern, read source = .ok pattern ∧ p pattern.items) ↔
      ∃ items, readItems (source.toList.length + 1) (Cursor.ofText source) = .ok items ∧ p items := by
  unfold read
  dsimp only [Cursor.ofText]
  constructor
  · rintro ⟨pattern, known, holds⟩
    split at known
    next items found =>
      obtain rfl := Except.ok.inj known
      exact ⟨items, found, holds⟩
    next => cases known
  · rintro ⟨items, found, holds⟩
    rw [found]
    exact ⟨_, rfl, holds⟩

theorem written_of_read {source : String} {pattern : Pattern} (known : read source = .ok pattern) :
    Written source.toList (pattern.items.map Item.part) := by
  have found : ∃ pattern', read source = .ok pattern' ∧
      pattern'.items.map Item.part = pattern.items.map Item.part := ⟨pattern, known, rfl⟩
  exact (readItems_iff_written (Nat.lt_succ_self _)).mp (exists_read_iff.mp found)

theorem exists_read_of_written {source : String} {parts : List Part}
    (written : Written source.toList parts) :
    ∃ pattern, read source = .ok pattern ∧ pattern.items.map Item.part = parts :=
  exists_read_iff.mpr ((readItems_iff_written (Nat.lt_succ_self _)).mpr written)

/-- Reading a pattern succeeds just on the texts that are written from parts, and its items are
these parts. -/
theorem read_iff_written (source : String) (parts : List Part) :
    (∃ pattern, read source = .ok pattern ∧ pattern.items.map Item.part = parts) ↔
      Written source.toList parts :=
  exists_read_iff.trans (readItems_iff_written (Nat.lt_succ_self _))

end Pattern
end SentenceGrammar
