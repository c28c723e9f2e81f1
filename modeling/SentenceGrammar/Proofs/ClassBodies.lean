import SentenceGrammar.Proofs.PatternSpans

/-!
# What character classes denote

Any characters and ranges can be listed in a class, if each of them is written with a backslash: then
neither a dash, a caret nor a bracket among them is read as anything else.

## Main result

`read_classBody`: the class that is read from such a body, on its own or in a pattern, has just the
characters that are listed, or behind a caret just the others.
-/
namespace SentenceGrammar

/-- What a character class lists. -/
inductive ClassPart where
  | single (c : Char)
  | range (low high : Char) (ordered : low ≤ high)

namespace ClassPart

def Has : ClassPart → Char → Prop
  | single listed, c => c = listed
  | range low high _, c => low ≤ c ∧ c ≤ high

def write : ClassPart → List Char
  | single c => ['\\', c]
  | range low high _ => ['\\', low, '-', '\\', high]

/-- The characters of the written form, each with whether it is escaped. -/
def chars : ClassPart → List (Char × Bool)
  | single c => [(c, true)]
  | range low high _ => [(low, true), ('-', false), (high, true)]

def ends : ClassPart → Char × Char
  | single c => (c, c)
  | range low high _ => (low, high)

theorem has_iff (part : ClassPart) (c : Char) :
    part.Has c ↔ part.ends.1 ≤ c ∧ c ≤ part.ends.2 := by
  cases part with
  | single listed =>
    simp only [Has, ends]
    constructor
    · rintro rfl
      exact ⟨Char.le_refl c, Char.le_refl c⟩
    · rintro ⟨above, below⟩
      exact Char.le_antisymm below above
  | range low high ordered => exact Iff.rfl

end ClassPart

/-- The body of a class that lists the parts, or everything else. -/
def classBody (excluded : Bool) (parts : List ClassPart) : List Char :=
  (if excluded then ['^'] else []) ++ parts.flatMap ClassPart.write

variable {parts : List ClassPart} {excluded : Bool}

/-! ### The body on its own -/

namespace CharClass

theorem unescape_escaped {rest : List Char} {chars : List (Char × Bool)} (c : Char)
    (known : unescape rest = .ok chars) :
    unescape ('\\' :: c :: rest) = .ok ((c, true) :: chars) := by
  rw [unescape, known]
  rfl

theorem unescape_ordinary {c : Char} {rest : List Char} {chars : List (Char × Bool)}
    (ordinary : c ≠ '\\') (known : unescape rest = .ok chars) :
    unescape (c :: rest) = .ok ((c, false) :: chars) := by
  simp [unescape, ordinary, known, bind, Except.bind, pure, Except.pure]

theorem unescape_parts (parts : List ClassPart) :
    unescape (parts.flatMap ClassPart.write) = .ok (parts.flatMap ClassPart.chars) := by
  induction parts with
  | nil => rfl
  | cons part rest ih =>
    rw [List.flatMap_cons, List.flatMap_cons]
    cases part with
    | single c => exact unescape_escaped c ih
    | range low high _ =>
      apply unescape_escaped
      apply unescape_ordinary (by decide)
      exact unescape_escaped high ih

/-- Each part begins with an escaped character. -/
theorem chars_begin (parts : List ClassPart) : parts.flatMap ClassPart.chars = [] ∨
    ∃ c rest, parts.flatMap ClassPart.chars = (c, true) :: rest := by
  match parts with
  | [] => exact .inl rfl
  | .single c :: rest => exact .inr ⟨c, _, rfl⟩
  | .range low _ _ :: rest => exact .inr ⟨low, _, rfl⟩

/-- A character in front of an escaped one is no end of a range. -/
theorem readRanges_single {chars : List (Char × Bool)} {ranges : List (Char × Char)} (c : Char)
    (behind : chars = [] ∨ ∃ d rest, chars = (d, true) :: rest) (known : readRanges chars = .ok ranges) :
    readRanges ((c, true) :: chars) = .ok ((c, c) :: ranges) := by
  have step : readRanges ((c, true) :: chars) = (do return (c, c) :: (← readRanges chars)) := by
    rcases behind with rfl | ⟨d, rest, rfl⟩
    · rfl
    · rw [readRanges]
      simp
  rw [step, known]
  rfl

theorem readRanges_range {low high : Char} {chars : List (Char × Bool)}
    {ranges : List (Char × Char)} (ordered : low ≤ high) (known : readRanges chars = .ok ranges) :
    readRanges ((low, true) :: ('-', false) :: (high, true) :: chars) =
      .ok ((low, high) :: ranges) := by
  rw [readRanges, if_neg (Char.not_lt.mpr ordered), known]
  rfl

theorem readRanges_parts (parts : List ClassPart) :
    readRanges (parts.flatMap ClassPart.chars) = .ok (parts.map ClassPart.ends) := by
  induction parts with
  | nil => rfl
  | cons part rest ih =>
    rw [List.flatMap_cons, List.map_cons]
    cases part with
    | single c => exact readRanges_single c (chars_begin rest) ih
    | range low high ordered => exact readRanges_range ordered ih

/-- The class is read off the body part by part. -/
theorem read_parts (some : parts ≠ []) (excluded : Bool) :
    read (String.ofList (classBody excluded parts)) =
      .ok ⟨excluded, parts.map ClassPart.ends, String.ofList (classBody excluded parts)⟩ := by
  have known := unescape_parts parts
  have ranges := readRanges_parts parts
  obtain ⟨c, rest, first⟩ : ∃ c rest, parts.flatMap ClassPart.chars = (c, true) :: rest := by
    apply (chars_begin parts).resolve_left
    obtain ⟨part, rest, rfl⟩ := List.exists_cons_of_ne_nil some
    cases part <;> simp [ClassPart.chars]
  rw [first] at known ranges
  rw [read, String.toList_ofList]
  cases excluded with
  | true =>
    have caret : unescape (classBody true parts) = .ok (('^', false) :: (c, true) :: rest) :=
      unescape_ordinary (by decide) known
    simp [caret, ranges, bind, Except.bind, pure, Except.pure]
  | false =>
    -- The first character is escaped, so it is no caret that excludes the others.
    have plain : unescape (classBody false parts) = .ok ((c, true) :: rest) := known
    simp [plain, ranges, bind, Except.bind, pure, Except.pure]

theorem contains_iff {set : CharClass} {c : Char} : set.contains c = true ↔
    ((∃ range ∈ set.ranges, range.1 ≤ c ∧ c ≤ range.2) ↔ set.negated = false) := by
  rw [contains]
  cases set.negated <;> simp

end CharClass

/-! ### The body in a pattern -/

/-- The body ends at its own bracket only. -/
theorem classBody_inside (excluded : Bool) (parts : List ClassPart) :
    ClassBody (classBody excluded parts) := by
  have listed : ClassBody (parts.flatMap ClassPart.write) := by
    induction parts with
    | nil => exact .nil
    | cons part rest ih =>
      cases part with
      | single c => exact .escaped c ih
      | range low high _ => exact .escaped low (.plain (by decide) (.escaped high ih))
  cases excluded with
  | true => exact .plain (by decide) listed
  | false => exact listed

/-- The text of a placeholder for exactly one character of a class. -/
def classSlot (name : String) (body : List Char) : List Char :=
  '{' :: name.toList ++ ':' :: '[' :: body ++ [']', '}']

/-- A class that can be read on its own is read in a pattern. -/
theorem Pattern.read_classSlot {name : String} {body : List Char} {set : CharClass}
    (identifier : Identifier name.toList) (inside : ClassBody body)
    (accepted : CharClass.read (String.ofList body) = .ok set) :
    read (String.ofList (classSlot name body)) = .ok ⟨String.ofList (classSlot name body),
      [.placeholder ⟨name, .charClass set, .one,
        .ofOffsets 0 (Text.byteSize (classSlot name body))⟩]⟩ := by
  have written : SlotText (classSlot name body)
      (Item.placeholder ⟨name, .charClass set, .one, ⟨0, 0⟩⟩).part := by
    simpa [classSlot, Item.part] using
      SlotText.intro identifier (.refl _) (.charClass inside accepted) .nil
  exact read_slot written

/-- A body of a class and what is read from it. -/
structure ReadsClass (excluded : Bool) (parts : List ClassPart) (set : CharClass) : Prop where
  /-- The class is read from its body. -/
  read : CharClass.read (String.ofList (classBody excluded parts)) = .ok set
  /-- It has the characters that are listed, -/
  listed : excluded = false → ∀ c, set.contains c = true ↔ ∃ part ∈ parts, part.Has c
  /-- or all the others. -/
  others : excluded = true → ∀ c, set.contains c = true ↔ ¬∃ part ∈ parts, part.Has c
  /-- The same class is read in a placeholder, whatever its name is. -/
  placed : ∀ name : String, Identifier name.toList →
    Pattern.read (String.ofList (classSlot name (classBody excluded parts))) =
      .ok ⟨String.ofList (classSlot name (classBody excluded parts)),
        [.placeholder ⟨name, .charClass set, .one,
          .ofOffsets 0 (Text.byteSize (classSlot name (classBody excluded parts)))⟩]⟩

/-- Character classes denote what they list. -/
theorem read_classBody {parts : List ClassPart} (some : parts ≠ []) (excluded : Bool) :
    ∃ set, ReadsClass excluded parts set := by
  have known := CharClass.read_parts some excluded
  have member (c : Char) : (∃ range ∈ parts.map ClassPart.ends, range.1 ≤ c ∧ c ≤ range.2) ↔
      ∃ part ∈ parts, part.Has c := by
    simp [ClassPart.has_iff]
  refine ⟨_, known, ?listed, ?others, ?placed⟩
  case listed =>
    rintro rfl c
    rw [CharClass.contains_iff, member]
    simp
  case others =>
    rintro rfl c
    rw [CharClass.contains_iff, member]
    simp
  case placed =>
    intro name identifier
    exact Pattern.read_classSlot identifier (classBody_inside excluded parts) known

/-- Characters that mean something else in a class if no backslash stands before them. The dash is
also the end of a range. -/
def specials : List ClassPart :=
  [.range '+' '-' (by decide), .single '-', .single '^', .single ']', .single '\\']

theorem read_classBody_specials : specials ≠ [] ∧
    classBody true specials = "^\\+-\\-\\-\\^\\]\\\\".toList ∧ Identifier "x".toList ∧
      ∃ set, ReadsClass true specials set := by
  have some : specials ≠ [] := by decide
  have named : Identifier "x".toList := isIdentifier_iff.mp (by decide)
  exact ⟨some, by decide, named, read_classBody some true⟩

end SentenceGrammar
