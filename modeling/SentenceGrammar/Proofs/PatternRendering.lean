import SentenceGrammar.Proofs.PatternGrammar

/-!
# Writing patterns back

The items of a pattern can be written one after the other: literal text with a backslash in front of
every special character, and placeholders in their usual form. Reading this gives the same items
again, in other places. A quantifier may be written shorter than it was, and the body of a character
class is written as it was.
-/
namespace SentenceGrammar

open Text (isAsciiDigit)

/-- The text with a backslash in front of every special character. -/
def escape : List Char → List Char
  | [] => []
  | c :: rest =>
    if c = '{' ∨ c = '}' ∨ c = '\\' then '\\' :: c :: escape rest else c :: escape rest

/-- The text of a pattern for an item. -/
def Item.write : Item → String
  | .literal text _ => String.ofList (escape text.toList)
  | .placeholder slot => slot.render

/-- The items, written one after the other. -/
def Pattern.write (pattern : Pattern) : String := String.join (pattern.items.map Item.write)

/-! ### Writing quantifiers -/

theorem Numeral.denotes_repr (n : Nat) : Denotes (toString n).toList n := by
  rw [Nat.toString_eq_repr, Nat.toList_repr]
  -- The last digit is written behind the digits of a tenth of the number.
  induction n using Nat.strongRecOn with
  | ind n ih =>
    have digit : ∀ d < 10, isAsciiDigit d.digitChar = true ∧ Decimal.digitValue d.digitChar = d := by
      decide
    rw [Nat.toDigits_eq_if (by decide)]
    split
    next small =>
      have last := Denotes.digit (digit n small).1
      rwa [(digit n small).2] at last
    next large =>
      have below : n / 10 < n := by omega
      have last := Denotes.append (ih (n / 10) below) (digit (n % 10) (by omega)).1
      rwa [(digit (n % 10) (by omega)).2, Nat.div_add_mod] at last

theorem Quantifier.render_bounded {least most : Nat} (ordered : least ≤ most) (positive : 1 ≤ most)
    (bounded : most < 0x100000000) (several : (⟨least, some most⟩ : Quantifier) ≠ .one) :
    QuantifierText (render ⟨least, some most⟩).toList ⟨least, some most⟩ := by
  rw [render, if_neg several]
  -- `0-1` becomes `?`, and `n-n` becomes `n`; there is no other short form for a greatest count.
  split
  next same => exact same ▸ .optional
  rw [if_neg (by simp [zeroOrMore]), if_neg (by simp [oneOrMore])]
  dsimp only
  split
  next same =>
    subst same
    exact .exactly (Numeral.denotes_repr least) positive bounded
  next =>
    have written := QuantifierText.between (Numeral.denotes_repr least) (Numeral.denotes_repr most)
      ordered positive bounded
    simpa using written

/-- A quantifier is written in one of the forms in which it can be read, unless it is the one that is
written as nothing. -/
theorem QuantifierText.render {text : List Char} {quantifier : Quantifier}
    (written : QuantifierText text quantifier) (several : quantifier ≠ .one) :
    QuantifierText quantifier.render.toList quantifier := by
  cases written with
  | optional => exact .optional
  | zeroOrMore => exact .zeroOrMore
  | oneOrMore => exact .oneOrMore
  | exactly _ positive bounded =>
    exact Quantifier.render_bounded (Nat.le_refl _) positive bounded several
  | between _ _ ordered positive bounded =>
    exact Quantifier.render_bounded ordered positive bounded several

/-! ### Writing placeholders -/

private theorem CharClass.body_of_listed {negated : Bool} {listed : List (Char × Bool)}
    {text : String} {set : CharClass}
    (accepted : (do
      if listed = [] then throw .empty
      return ⟨negated, ← readRanges listed, text⟩ : Except ClassFault CharClass) = .ok set) :
    set.body = text := by
  split at accepted
  next => cases accepted
  next =>
    obtain ⟨ranges, -, same⟩ := exists_of_bind_ok accepted
    obtain rfl := Except.ok.inj same
    rfl

/-- The body of a character class is kept as it is written. -/
theorem CharClass.read_body {text : String} {set : CharClass} (accepted : read text = .ok set) :
    set.body = text := by
  unfold read at accepted
  obtain ⟨chars, -, accepted⟩ := exists_of_bind_ok accepted
  dsimp only at accepted
  split at accepted
  next => exact body_of_listed accepted
  next => exact body_of_listed accepted

theorem TargetText.render {text : List Char} {target : Target} (written : TargetText text target) :
    TargetText target.render.toList target := by
  cases written with
  | @charClass body set inside accepted =>
    have same : (Target.charClass set).render.toList = '[' :: body ++ [']'] := by
      simp [Target.render, CharClass.source, CharClass.read_body accepted]
    rw [same]
    exact .charClass inside accepted
  | builtin => exact .builtin (.refl _)
  | named identifier other => exact .named identifier other (.refl _)

/-- What is written behind a target for a quantifier. -/
def Quantifier.count (quantifier : Quantifier) : List Char :=
  if quantifier = .one then [] else ':' :: quantifier.render.toList

theorem CountText.render {text : List Char} {quantifier : Quantifier}
    (written : CountText text quantifier) : CountText quantifier.count quantifier := by
  rw [Quantifier.count]
  split
  next same => exact same ▸ .nil
  next several =>
    cases written with
    | nil => exact absurd rfl several
    | colon written => exact .colon (written.render several) (.refl _)

/-- The characters that are written for a part. -/
def Part.write : Part → List Char
  | .literal text => escape text
  | .slot name target quantifier =>
    '{' :: name.toList ++ ':' :: target.render.toList ++ quantifier.count ++ ['}']

theorem SlotText.write {text : List Char} {slot : Part} (written : SlotText text slot) :
    SlotText slot.write slot := by
  obtain ⟨identifier, named, targeted, counted⟩ := written
  exact .intro identifier (.refl _) targeted.render counted.render

theorem Item.write_eq (item : Item) : item.write.toList = item.part.write := by
  cases item with
  | literal text span => exact String.toList_ofList
  | placeholder slot =>
    simp only [write, part, Part.write, Placeholder.render, Quantifier.count]
    split <;> simp

theorem Pattern.write_eq (pattern : Pattern) :
    pattern.write.toList = (pattern.items.map Item.part).flatMap Part.write := by
  simp [write, List.flatMap_map, Item.write_eq]

/-! ### Writing parts -/

/-- Escaped text in front of a text is literal text in front of its parts. -/
theorem Written.escape {rest : List Char} {parts : List Part} (written : Written rest parts)
    (text : List Char) : Written (escape text ++ rest) (glue text parts) := by
  induction text with
  | nil => exact written
  | cons c text ih =>
    have joined : glue (c :: text) parts = glue [c] (glue text parts) :=
      (glue_glue [c] text parts).symm
    rw [joined, SentenceGrammar.escape]
    split
    next special => exact .escaped special ih
    next ordinary => exact .plain ordinary ih

theorem Tidy.written {parts : List Part} (tidy : Tidy parts) :
    Written (parts.flatMap Part.write) parts := by
  induction tidy with
  | nil => exact .nil
  | @last text some =>
    have written := Written.nil.escape text
    rwa [glue_nil, if_neg some] at written
  | @literal text inside slot parts some placed _ ih =>
    -- A placeholder follows, so the text stays a part of its own.
    have written := (Written.slot placed.write ih).escape text
    rwa [glue_slot placed, if_neg some] at written
  | slot placed _ ih => exact .slot placed.write ih

namespace Pattern

/-- What is read from a pattern that is written back are the same items in other places. -/
theorem read_write {source : String} {pattern : Pattern} (known : read source = .ok pattern) :
    ∃ again, read pattern.write = .ok again ∧
      again.items.map Item.part = pattern.items.map Item.part := by
  have back := (written_of_read known).tidy.written
  rw [← write_eq] at back
  exact exists_read_iff.mpr ((readItems_iff_written (Nat.lt_succ_self _)).mpr back)

/-- A pattern whose escapes and quantifiers are written in other ways than it is written back. -/
def longForms : Pattern where
  source := "\\a\\\x7b\x7b n :[\x7d:\\]]: 0-1 \x7d\x7bm:int:1-1\x7d\x7bk:word:02-2\x7d"
  items :=
    [.literal "\\a\x7b" ⟨0, 4⟩,
      .placeholder ⟨"n", .charClass ⟨false, [('}', '}'), (':', ':'), (']', ']')], "\x7d:\\]"⟩,
        .optional, ⟨4, 22⟩⟩,
      .placeholder ⟨"m", .builtin .int, .one, ⟨22, 33⟩⟩,
      .placeholder ⟨"k", .named "word", ⟨2, some 2⟩, ⟨33, 46⟩⟩]

theorem read_write_longForms :
    longForms.write = "\\\\a\\\x7b\x7bn:[\x7d:\\]]:?\x7d\x7bm:int\x7d\x7bk:word:2\x7d" ∧
      read longForms.source = .ok longForms ∧
      ∃ again, read longForms.write = .ok again ∧
        again.items.map Item.part = longForms.items.map Item.part := by
  have known : read longForms.source = .ok longForms := by decide +kernel
  exact ⟨by decide +kernel, known, read_write known⟩

end Pattern
end SentenceGrammar
