import Mathlib.Data.List.Pairwise
import Mathlib.Order.CompletePartialOrder
import SentenceGrammar.Proofs.PreprocessRuns
import SentenceGrammar.Proofs.SingleSentences

/-!
# Physical units

A size in the unit of the calibration is converted to pixels. The unit may be any text without
special characters, be it with blanks, full stops, or whole sentences in it. Still a script with
such a size can be read as a sentence in one way only: no sentence begins like another one, and
numbers hold no blank, so the first blank of a size ends its number, and the last one of a script
begins its weight.
-/
namespace SentenceGrammar

/-! ### Texts and their blanks -/

theorem split_at_first {a b c d : List Char} {mark : Char} (absent : mark ∉ a) (absent' : mark ∉ c)
    (same : a ++ mark :: b = c ++ mark :: d) : a = c ∧ b = d := by
  rcases List.append_eq_append_iff.mp same with ⟨more, rfl, left⟩ | ⟨more, rfl, left⟩
  · cases more with
    | nil => simpa using left
    | cons first more =>
      obtain ⟨rfl, -⟩ := List.cons.inj left
      simp at absent'
  · cases more with
    | nil => simpa [eq_comm] using left
    | cons first more =>
      obtain ⟨rfl, -⟩ := List.cons.inj left
      simp at absent

theorem split_at_last {a b c d : List Char} {mark : Char} (absent : mark ∉ b) (absent' : mark ∉ d)
    (same : a ++ mark :: b = c ++ mark :: d) : a = c ∧ b = d := by
  have reversed : b.reverse ++ mark :: a.reverse = d.reverse ++ mark :: c.reverse := by
    simpa using congrArg List.reverse same
  obtain ⟨behind, before⟩ :=
    split_at_first (by simpa using absent) (by simpa using absent') reversed
  exact ⟨List.reverse_injective before, List.reverse_injective behind⟩

namespace Numeral

/-- The words over some characters. -/
def wordsOver (accepts : Char → Prop) : Language Char := {word | ∀ c ∈ word, accepts c}

section

variable {accepts : Char → Prop} {first second : Language Char}

theorem mul_over (inFirst : first ≤ wordsOver accepts) (inSecond : second ≤ wordsOver accepts) :
    first * second ≤ wordsOver accepts := by
  rintro _ ⟨front, isFront, back, isBack, rfl⟩
  exact List.forall_mem_append.mpr ⟨inFirst isFront, inSecond isBack⟩

theorem optional_over (inFirst : first ≤ wordsOver accepts) :
    optional first ≤ wordsOver accepts := by
  rintro word (rfl | isWord)
  · nofun
  · exact inFirst isWord

theorem oneOf_over {chars : List Char} (accepted : ∀ c ∈ chars, accepts c) :
    oneOf chars ≤ wordsOver accepts := by
  rintro _ ⟨c, chosen, rfl⟩
  exact List.forall_mem_singleton.mpr (accepted c chosen)

theorem digits_over (accepted : ∀ c, Text.isAsciiDigit c = true → accepts c) :
    digits ≤ wordsOver accepts := fun _ isWord c member => accepted c (isWord.2 c member)

end

/-- There is no blank in a number. -/
theorem float_over : float ≤ wordsOver (· ≠ ' ') := by
  have digits : digits ≤ wordsOver (· ≠ ' ') := digits_over (by rintro c digit rfl; cases digit)
  have sign : sign ≤ wordsOver (· ≠ ' ') := optional_over (oneOf_over (by simp))
  have point : oneOf ['.'] ≤ wordsOver (· ≠ ' ') := oneOf_over (by simp)
  have exponent : exponent ≤ wordsOver (· ≠ ' ') :=
    mul_over (oneOf_over (by simp)) (mul_over sign digits)
  refine mul_over sign (mul_over ?_ (optional_over exponent))
  rintro word (whole | fraction)
  · exact mul_over digits (optional_over (mul_over point (optional_over digits))) whole
  · exact mul_over point digits fraction

theorem blank_notMem {word : List Char} (numeral : word ∈ float) : ' ' ∉ word :=
  fun member => float_over numeral ' ' member rfl

end Numeral

/-- A text without special characters is written from itself. -/
theorem Written.ordinary {text : List Char} (ordinary : ∀ c ∈ text, ¬Special c) :
    Written text (glue text []) := by
  induction text with
  | nil => exact .nil
  | cons c rest ih =>
    obtain ⟨first, others⟩ := List.forall_mem_cons.mp ordinary
    have written := Written.plain first (ih others)
    rwa [glue_glue] at written

namespace Preprocess

open Matching (Shows Fits)

variable {ε κ τ : Type} {registry : Registry (Rule ε) κ} {config : Config}
  {calibration : Calibration}

/-! ### Units -/

/-- A unit that is written as it is, and that differs from pixels. -/
structure IsPhysicalUnit (unit : String) : Prop where
  nonempty : unit ≠ ""
  other : unit ≠ "pixel"
  apart : unit ≠ "pixel(s)"
  ordinary : ∀ c ∈ unit.toList, ¬Special c

/-- The ways to write a unit, and whether it is a physical one. -/
def unitForms (calibration : Calibration) : List (String × Bool) :=
  [("pixel(s)", false), (calibration.unit, true)]

theorem unit_hasParts {unit : String} (nonempty : unit ≠ "")
    (ordinary : ∀ c ∈ unit.toList, ¬Special c) : HasParts unit [.literal unit.toList] := by
  refine (Pattern.exists_read_iff.trans (Pattern.readItems_iff_written (Nat.lt_succ_self _))).mpr ?_
  have written := Written.ordinary ordinary
  rwa [glue_nil, if_neg (mt String.toList_eq_nil_iff.mp nonempty)] at written

theorem IsPhysicalUnit.isCalibrated (unit : IsPhysicalUnit calibration.unit) :
    calibration.isCalibrated = true := by
  simp [Calibration.isCalibrated, unit.nonempty, unit.other]

theorem IsPhysicalUnit.unitDefinitions_eq (unit : IsPhysicalUnit calibration.unit) :
    (unitDefinitions calibration : List (Definition (Rule ε) κ)) =
      [unitDefinition "pixel(s)" false, unitDefinition calibration.unit true] := by
  rw [unitDefinitions, if_pos unit.isCalibrated]

theorem IsPhysicalUnit.form_unique (unit : IsPhysicalUnit calibration.unit)
    {first second : String × Bool} (isFirst : first ∈ unitForms calibration)
    (isSecond : second ∈ unitForms calibration) (same : first.1 = second.1) : first = second := by
  simp only [unitForms, List.mem_cons, List.not_mem_nil, or_false] at isFirst isSecond
  rcases isFirst with rfl | rfl <;> rcases isSecond with rfl | rfl
  · rfl
  · exact absurd same.symm unit.apart
  · exact absurd same unit.apart
  · rfl

/-- Such a unit can be defined. -/
theorem IsPhysicalUnit.tune_ok (unit : IsPhysicalUnit calibration.unit)
    (units : registry.containsType "units" = true) :
    ∃ tuned, tune calibration registry = .ok tuned := by
  have feasible : ∀ definition ∈ (unitDefinitions calibration : List (Definition (Rule ε) κ)),
      definition.Feasible := by
    rw [unit.unitDefinitions_eq, List.forall_mem_cons, List.forall_mem_singleton]
    exact ⟨unitDefinition_feasible pixels_hasParts,
      unitDefinition_feasible (unit_hasParts unit.nonempty unit.ordinary)⟩
  obtain ⟨tuned, defined⟩ := Registry.exists_foldlM_define feasible (registry.without "units")
  rw [tune_eq units, unitCalls, List.tail_cons]
  exact ⟨tuned, Registry.applyAll_define_ok_iff.mpr defined⟩

theorem Tuned.unit_forms (tuned : Tuned calibration registry)
    (unit : IsPhysicalUnit calibration.unit) :
    List.Forall₂ (fun form chosen => Shaped [.literal form.1.toList] (.unit form.2) chosen)
      (unitForms calibration) (registry.alternatives "units") := by
  have given := tuned.units
  rw [unit.unitDefinitions_eq] at given
  obtain ⟨pixels, _, givesPixels, more, same⟩ := List.forall₂_cons_left_iff.mp given
  obtain ⟨physical, _, givesPhysical, none, rfl⟩ := List.forall₂_cons_left_iff.mp more
  obtain rfl := List.forall₂_nil_left_iff.mp none
  rw [same]
  exact .cons (shaped_of_gives givesPixels pixels_hasParts rfl) <|
    .cons (shaped_of_gives givesPhysical (unit_hasParts unit.nonempty unit.ordinary) rfl) .nil

/-- In the grammar of a pass, only sizes are made of other types, namely of units. -/
theorem Tuned.eq_of_asks (tuned : Tuned calibration registry)
    (unit : IsPhysicalUnit calibration.unit) {outer inner : String × Cursor}
    (asked : Matching.Asks registry.alternatives config outer inner) :
    outer.1 = "filter-size" ∧ inner.1 = "units" := by
  obtain ⟨chosen, member, asked⟩ := asked
  obtain ⟨slot, placeholder, target⟩ := asked.target
  have slotted := List.mem_map_of_mem (f := Item.part) placeholder
  by_cases units : outer.1 = "units"
  · -- Units are literal text.
    rw [units] at member
    obtain ⟨form, -, shaped⟩ := Matching.exists_of_forall₂ (tuned.unit_forms unit) member
    rw [shaped.parts] at slotted
    cases List.mem_singleton.mp slotted
  by_cases size : outer.1 = "filter-size"
  · rw [size] at member
    rw [(tuned.size_shaped member).parts, Item.part, target] at slotted
    obtain ⟨-, inner, -⟩ : slot.name = "units" ∧ inner.1 = "units" ∧ slot.quantifier = .one := by
      simpa [sizeParts] using slotted
    exact ⟨size, inner⟩
  · rw [tuned.others outer.1 units size] at member
    cases member

theorem Tuned.acyclic (tuned : Tuned calibration registry) (unit : IsPhysicalUnit calibration.unit)
    (text : List Char) : Matching.NoLeftRecursion registry.alternatives config text := by
  have further {outer inner : String × Cursor}
      (asked : Relation.TransGen (Matching.Asks registry.alternatives config) outer inner) :
      outer.1 = "filter-size" ∧ inner.1 = "units" := by
    induction asked with
    | single asked => exact tuned.eq_of_asks unit asked
    | tail _ asked ih => exact ⟨ih.1, (tuned.eq_of_asks unit asked).2⟩
  intro pair _ around
  obtain ⟨size, units⟩ := further around
  exact absurd (size.symm.trans units) (by decide)

/-! ### Sizes -/

/-- A unit is read as one of the ways to write it. -/
theorem Tuned.exists_form (tuned : Tuned calibration registry)
    (unit : IsPhysicalUnit calibration.unit) {name : String} {node : Node (Rule ε) κ}
    (shows : Shows registry.alternatives config (.slot name (.named "units") .one) node) :
    ∃ form ∈ unitForms calibration, node.covered.toList = form.1.toList ∧
      isPhysical node = form.2 := by
  obtain ⟨chosen, member, kind, children, text⟩ := shows.type
  obtain ⟨form, isForm, shaped⟩ := Matching.exists_of_forall₂ (tuned.unit_forms unit) member
  rw [shaped.parts] at children
  generalize node.children = nodes at children text
  obtain ⟨literal, _, isLiteral, none, rfl⟩ := List.forall₂_cons_left_iff.mp children
  obtain rfl := List.forall₂_nil_left_iff.mp none
  refine ⟨form, isForm, by simp [text, isLiteral.literal], ?_⟩
  rw [isPhysical, Node.evaluator?, Node.alternative?, kind]
  change chosen.evaluator.any _ = _
  rw [shaped.evaluator]
  rfl

/-- A size is read as its number and its unit. -/
theorem Tuned.sizeOf_eq (tuned : Tuned calibration registry)
    (unit : IsPhysicalUnit calibration.unit) {name : String} {size : Node (Rule ε) κ}
    (unclipped : size.Unclipped)
    (shows : Shows registry.alternatives config (.slot name (.named "filter-size") .one) size)
    {number : List Char} (numeral : number ∈ Numeral.float) {x : Float}
    (value : Decimal.readFloat? number = some x) {form : String × Bool}
    (isForm : form ∈ unitForms calibration)
    (covers : size.covered.toList = number ++ ' ' :: form.1.toList) :
    sizeOf calibration size = .ok (calibration.toPixels x form.2) := by
  obtain ⟨chosen, member, -, children, whole⟩ := shows.type
  rw [(tuned.size_shaped member).parts, sizeParts] at children
  generalize listed : size.children = nodes at children whole
  obtain ⟨first, _, isNumber, behind, rfl⟩ := List.forall₂_cons_left_iff.mp children
  obtain ⟨blank, _, isBlank, last, rfl⟩ := List.forall₂_cons_left_iff.mp behind
  obtain ⟨second, _, isUnit, none, rfl⟩ := List.forall₂_cons_left_iff.mp last
  obtain rfl := List.forall₂_nil_left_iff.mp none
  obtain ⟨form', isForm', unitText, physical⟩ := tuned.exists_form unit isUnit
  have same : first.covered.toList ++ ' ' :: form'.1.toList = number ++ ' ' :: form.1.toList := by
    rw [← covers, whole]
    simp [isBlank.literal, unitText]
  -- The first blank is behind the number, so the number and the unit are the given ones.
  obtain ⟨sameNumber, sameUnit⟩ := split_at_first (Numeral.blank_notMem (isNumber.number rfl).2)
    (Numeral.blank_notMem numeral) same
  obtain rfl := unit.form_unique isForm' isForm (String.toList_inj.mp sameUnit)
  have foundNumber : size.find? "stddev" = some ([0], first) :=
    Node.find?_child (show size.children = [] ++ first :: _ from listed) nofun isNumber.name_eq
  have foundUnit : size.find? "units" = some ([2], second) :=
    Node.find?_child (show size.children = [first, blank] ++ second :: [] from listed)
      (by simp [isNumber.name_eq, isBlank.name_eq, Part.name?]) isUnit.name_eq
  rw [← sameNumber, ← (unclipped.of_find? foundNumber).text_eq] at value
  rw [Preprocess.sizeOf_eq foundNumber foundUnit, floatOf_of_read value, physical]
  rfl

/-- A number and a unit are a size. -/
theorem Tuned.size_fits (tuned : Tuned calibration registry)
    (unit : IsPhysicalUnit calibration.unit) {name : String} {number : List Char}
    (numeral : number ∈ Numeral.float) {form : String × Bool}
    (isForm : form ∈ unitForms calibration) :
    Fits registry.alternatives config (.slot name (.named "filter-size") .one)
      (number ++ ' ' :: form.1.toList) := by
  obtain ⟨way, isWay, unitShape⟩ :=
    Matching.exists_of_forall₂ (List.Forall₂.flip (tuned.unit_forms unit)) isForm
  obtain ⟨size, alone, shape⟩ := tuned.sizes
  have unitFits : Fits registry.alternatives config (.slot "units" (.named "units") .one)
      [form.1.toList].flatten :=
    .type isWay (unitShape.parts ▸ .cons (.literal _) .nil)
  have fits : Fits registry.alternatives config (.slot name (.named "filter-size") .one)
      [number, " ".toList, [form.1.toList].flatten].flatten := by
    refine .type (alone ▸ List.mem_singleton.mpr rfl) ?_
    rw [shape.parts, sizeParts]
    exact .cons (.number rfl numeral) (.cons (.literal _) (.cons unitFits .nil))
  simpa using fits

/-! ### How sentences begin -/

/-- The text that parts begin with. -/
def leadOf : List Part → List Char
  | .literal text :: _ => text
  | _ => []

theorem leadOf_isPrefix {parts : List Part} {nodes : List (Node (Rule ε) κ)}
    (shows : List.Forall₂ (Shows registry.alternatives config) parts nodes) :
    leadOf parts <+: nodes.flatMap fun node => node.covered.toList := by
  cases shows with
  | nil => exact List.nil_prefix
  | @cons part node parts nodes shown others =>
    cases part with
    | slot => exact List.nil_prefix
    | literal text =>
      rw [List.flatMap_cons, shown.literal]
      exact List.prefix_append ..

/-- Neither of two texts begins with the other one. -/
def Apart (first second : List Char) : Prop := ¬first <+: second ∧ ¬second <+: first

instance (first second : List Char) : Decidable (Apart first second) :=
  inferInstanceAs (Decidable (_ ∧ _))

theorem leads_apart :
    ((sentenceParts (ε := ε)).map fun reading => leadOf reading.1).Pairwise Apart :=
  have apart : ((sentenceParts (ε := Empty)).map fun reading => leadOf reading.1).Pairwise Apart :=
    by decide +kernel
  apart

/-- The beginning of a text tells by which sentence it is read. -/
theorem reading_unique {first second : List Part × Rule ε} (isFirst : first ∈ sentenceParts)
    (isSecond : second ∈ sentenceParts) {text : List Char} (begins : leadOf first.1 <+: text)
    (begins' : leadOf second.1 <+: text) : first = second := by
  by_contra different
  have : Std.Symm fun first second : List Part × Rule ε =>
    Apart (leadOf first.1) (leadOf second.1) := ⟨fun _ _ => And.symm⟩
  have apart := (List.pairwise_map.mp leads_apart).forall isFirst isSecond different
  rcases List.prefix_or_prefix_of_prefix begins begins' with before | before
  · exact apart.1 before
  · exact apart.2 before

/-! ### Sentences with a size -/

/-- The sentences with a size. -/
inductive SizedSentence where
  | gaussianBlur
  | medianWindow
  | background
  | medianRadius
  | unsharpMask

namespace SizedSentence

/-- The text in front of the size. -/
def lead : SizedSentence → String
  | gaussianBlur => "Apply Gaussian blurring with a standard deviation of "
  | medianWindow => "Apply Median filtering with a window of radius "
  | background => "Subtract the background with a standard deviation of "
  | medianRadius => "Apply a Median filter with radius of "
  | unsharpMask => "Apply an Unsharp Mask with radius of "

/-- The name that the size goes by in the sentence. -/
def sizeName : SizedSentence → String
  | gaussianBlur => "stddev"
  | medianWindow | background => "window-size"
  | medianRadius | unsharpMask => "radius"

def rule : SizedSentence → Rule ε
  | gaussianBlur => .gaussianBlur
  | medianWindow => .medianFilter "window-size"
  | background => .subtractBackground
  | medianRadius => .medianFilter "radius"
  | unsharpMask => .unsharpMask

/-- What follows the size. Just one of the sentences has a weight. -/
def tailParts : SizedSentence → List Part
  | unsharpMask => [.literal " and mask weight of ".toList, .slot "weight" (.builtin .float) .one,
      .literal ".".toList]
  | _ => [.literal ".".toList]

def parts (sentence : SizedSentence) : List Part :=
  .literal sentence.lead.toList :: .slot sentence.sizeName (.named "filter-size") .one ::
    sentence.tailParts

def tail (weight : String) : SizedSentence → String
  | unsharpMask => " and mask weight of " ++ weight ++ "."
  | _ => "."

/-- The script with this sentence alone. -/
def script (sentence : SizedSentence) (number unit weight : String) : String :=
  sentence.lead ++ number ++ " " ++ unit ++ sentence.tail weight

/-- The operation that the sentence asks for. Radii are whole pixels. -/
def operation (size weight : Float) : SizedSentence → Operation
  | gaussianBlur => .gaussianBlur size
  | medianWindow | medianRadius => .medianFilter (Decimal.nearestInt64 size)
  | background => .subtractBackground (Decimal.nearestInt64 size)
  | unsharpMask => .unsharpMask size weight

variable (sentence : SizedSentence) {number unit weight : String}

theorem mem_sentenceParts : (sentence.parts, (sentence.rule : Rule ε)) ∈ sentenceParts := by
  match sentence with
  | gaussianBlur => exact .head _
  | medianWindow => exact .tail _ (.head _)
  | background => exact .tail _ (.tail _ (.tail _ (.head _)))
  | medianRadius => exact .tail _ (.tail _ (.tail _ (.tail _ (.head _))))
  | unsharpMask => exact .tail _ (.tail _ (.tail _ (.tail _ (.tail _ (.head _)))))

/-- These are all sentences with a size in them. -/
theorem exists_of_size {reading : List Part × Rule ε} (listed : reading ∈ sentenceParts)
    {name : String} {quantifier : Quantifier}
    (sized : .slot name (.named "filter-size") quantifier ∈ reading.1) :
    ∃ sentence : SizedSentence, (sentence.parts, sentence.rule) = reading := by
  simp only [sentenceParts, List.mem_cons, List.not_mem_nil, or_false] at listed
  rcases listed with rfl | rfl | rfl | rfl | rfl | rfl | rfl
  · exact ⟨gaussianBlur, rfl⟩
  · exact ⟨medianWindow, rfl⟩
  · simp at sized
  · exact ⟨background, rfl⟩
  · exact ⟨medianRadius, rfl⟩
  · exact ⟨unsharpMask, rfl⟩
  · simp at sized

theorem script_toList : (sentence.script number unit weight).toList = sentence.lead.toList ++
    (number.toList ++ ' ' :: unit.toList) ++ (sentence.tail weight).toList := by
  simp [script]

/-- Behind the size of all sentences but one there is just a full stop. -/
theorem tail_plain (weight : String) (plain : sentence ≠ .unsharpMask) :
    sentence.tailParts = [.literal ".".toList] ∧ sentence.tail weight = "." := by
  cases sentence with
  | unsharpMask => exact absurd rfl plain
  | gaussianBlur | medianWindow | background | medianRadius => exact ⟨rfl, rfl⟩

private theorem link_ends :
    " and mask weight of ".toList = " and mask weight of".toList ++ [' '] := by
  decide +kernel

theorem tail_weighted (weight : String) : (tail weight .unsharpMask).toList =
    " and mask weight of ".toList ++ weight.toList ++ ".".toList := by
  rw [← String.toList_append, ← String.toList_append]
  rfl

section

variable {sentence} {node : Node (Rule ε) κ} {nodes : List (Node (Rule ε) κ)}
  {before size : List Char} {x w : Float}

theorem size_of_plain (plain : sentence ≠ .unsharpMask)
    (shows : List.Forall₂ (Shows registry.alternatives config) sentence.tailParts nodes)
    (same : before ++ nodes.flatMap (fun node => node.covered.toList) =
      size ++ (sentence.tail weight).toList) : before = size := by
  obtain ⟨parts, tail⟩ := sentence.tail_plain weight plain
  rw [parts] at shows
  obtain ⟨stop, _, isStop, none, rfl⟩ := List.forall₂_cons_left_iff.mp shows
  obtain rfl := List.forall₂_nil_left_iff.mp none
  simpa [isStop.literal, tail] using same

/-- The weight begins behind the last blank. -/
theorem size_of_weighted (weighs : weight.toList ∈ Numeral.float)
    (shows : List.Forall₂ (Shows registry.alternatives config) (tailParts .unsharpMask) nodes)
    (same : before ++ nodes.flatMap (fun node => node.covered.toList) =
      size ++ (tail weight .unsharpMask).toList) :
    before = size ∧ ∃ link number stop, nodes = [link, number, stop] ∧ link.name = none ∧
      number.name = some "weight" ∧ number.covered.toList = weight.toList := by
  obtain ⟨link, _, isLink, behind, rfl⟩ := List.forall₂_cons_left_iff.mp shows
  obtain ⟨number, _, isNumber, last, rfl⟩ := List.forall₂_cons_left_iff.mp behind
  obtain ⟨stop, _, isStop, none, rfl⟩ := List.forall₂_cons_left_iff.mp last
  obtain rfl := List.forall₂_nil_left_iff.mp none
  have ended : before ++ " and mask weight of".toList ++ ' ' :: number.covered.toList ++ ".".toList =
      size ++ " and mask weight of".toList ++ ' ' :: weight.toList ++ ".".toList := by
    rw [tail_weighted, link_ends, List.flatMap_cons, List.flatMap_cons, List.flatMap_singleton,
      isLink.literal, isStop.literal, link_ends] at same
    simpa only [List.append_assoc, List.cons_append, List.nil_append] using same
  obtain ⟨sameSize, sameWeight⟩ := split_at_last (Numeral.blank_notMem (isNumber.number rfl).2)
    (Numeral.blank_notMem weighs) (List.append_cancel_right ended)
  exact ⟨List.append_cancel_right sameSize, link, number, stop, rfl, isLink.name_eq,
    isNumber.name_eq, sameWeight⟩

/-- The size of a sentence is what is left of its text between its lead and its tail. -/
theorem operation_eq (unclipped : node.Unclipped) (given : node.evaluator? = some sentence.rule)
    (shows : List.Forall₂ (Shows registry.alternatives config) sentence.parts node.children)
    (weighs : weight.toList ∈ Numeral.float) (value : Decimal.readFloat? weight.toList = some w)
    (whole : node.children.flatMap (fun child => child.covered.toList) =
      sentence.lead.toList ++ size ++ (sentence.tail weight).toList)
    (sized : ∀ child : Node (Rule ε) κ, child.Unclipped → Shows registry.alternatives config
      (.slot sentence.sizeName (.named "filter-size") .one) child → child.covered.toList = size →
        sizeOf calibration child = .ok x) :
    Preprocess.operation calibration node = .ok (sentence.operation x w) := by
  generalize listed : node.children = nodes at shows whole
  obtain ⟨first, _, isLead, others, rfl⟩ := List.forall₂_cons_left_iff.mp shows
  obtain ⟨child, rest, isSize, behind, rfl⟩ := List.forall₂_cons_left_iff.mp others
  have same : child.covered.toList ++ rest.flatMap (fun child => child.covered.toList) =
      size ++ (sentence.tail weight).toList := by
    simpa [isLead.literal] using whole
  -- Literal text has no name, so the size is the first child with its name.
  have foundSize : node.find? sentence.sizeName = some ([1], child) :=
    Node.find?_child (show node.children = [first] ++ child :: rest from listed)
      (by simp [isLead.name_eq, Part.name?]) isSize.name_eq
  have found := part_eq foundSize
  have ofSize := sized child (unclipped.of_find? foundSize) isSize
  by_cases plain : sentence ≠ .unsharpMask
  · have sizeValue := ofSize (size_of_plain plain behind same)
    cases sentence with
    | unsharpMask => exact absurd rfl plain
    | gaussianBlur | medianWindow | background | medianRadius =>
      simp only [sizeName] at found
      simp only [Preprocess.operation, given, rule, found, sizeValue, bind, Except.bind]
      rfl
  · obtain rfl := not_not.mp plain
    obtain ⟨rfl, link, number, stop, rfl, linkName, numberName, sameWeight⟩ :=
      size_of_weighted weighs behind same
    have foundNumber : node.find? "weight" = some ([3], number) :=
      Node.find?_child (show node.children = [first, child, link] ++ number :: [stop] from listed)
        (by simp [isLead.name_eq, isSize.name_eq, linkName, Part.name?, sizeName]) numberName
    have foundWeight := part_eq foundNumber
    have sizeValue := ofSize rfl
    rw [← sameWeight, ← (unclipped.of_find? foundNumber).text_eq] at value
    have weightValue := floatOf_of_read value
    simp only [sizeName] at found
    simp only [Preprocess.operation, given, rule, found, sizeValue, foundWeight, weightValue, bind,
      Except.bind]
    rfl

end

/-! ### Their scripts -/

theorem lead_isPrefix :
    leadOf sentence.parts <+: (sentence.script number unit weight).toList := by
  rw [script_toList, List.append_assoc]
  exact List.prefix_append ..

theorem lead_visible : ∃ c ∈ sentence.lead.toList.head?, Text.isBlank c = false := by
  cases sentence <;> exact ⟨_, rfl, rfl⟩

theorem script_begins :
    ∃ c ∈ (sentence.script number unit weight).toList.head?, Text.isBlank c = false := by
  obtain ⟨c, isFirst, visible⟩ := sentence.lead_visible
  refine ⟨c, ?_, visible⟩
  rw [script_toList, List.append_assoc, List.head?_append]
  simp [Option.mem_def.mp isFirst]

theorem script_ends :
    ∃ c ∈ (sentence.script number unit weight).toList.getLast?, Text.isBlank c = false := by
  have ends : (sentence.tail weight).toList.getLast? = some '.' := by
    by_cases plain : sentence ≠ .unsharpMask
    · rw [(sentence.tail_plain weight plain).2]
      rfl
    · rw [not_not.mp plain, tail_weighted, List.getLast?_append]
      rfl
  refine ⟨'.', ?_, rfl⟩
  rw [script_toList, List.getLast?_append]
  simp [ends]

theorem tail_fits (weighs : weight.toList ∈ Numeral.float) :
    ∃ words, List.Forall₂ (Fits registry.alternatives config) sentence.tailParts words ∧
      words.flatten = (sentence.tail weight).toList := by
  by_cases plain : sentence ≠ .unsharpMask
  · obtain ⟨parts, tail⟩ := sentence.tail_plain weight plain
    rw [parts, tail]
    exact ⟨[".".toList], .cons (.literal _) .nil, List.append_nil _⟩
  · rw [not_not.mp plain, tail_weighted]
    exact ⟨[" and mask weight of ".toList, weight.toList, ".".toList],
      .cons (.literal _) (.cons (.number rfl weighs) (.cons (.literal _) .nil)), by simp⟩

end SizedSentence

/-! ### Runs -/

section

variable [DecidableEq ε] [DecidableEq κ] (host : Host ε κ τ) {base : Registry (Rule ε) κ}
  {workplace : Workplace ε κ τ}

/-- The script of a sentence with a size, if it is of less than `2 ^ 32` bytes, is run to its
operation, with the size in pixels. -/
theorem Working.run_sized (working : Working base config calibration workplace)
    (unit : IsPhysicalUnit calibration.unit) {form : String × Bool}
    (isForm : form ∈ unitForms calibration) (sentence : SizedSentence) {number weight : String}
    (numeral : number.toList ∈ Numeral.float) (weighs : weight.toList ∈ Numeral.float) {x w : Float}
    (size : Decimal.readFloat? number.toList = some x)
    (heavy : Decimal.readFloat? weight.toList = some w)
    (small : Text.byteSize (sentence.script number form.1 weight).toList < 2 ^ 32) :
    ((Preprocess.run host (sentence.script number form.1 weight)).run workplace).1 =
      .ok [sentence.operation (calibration.toPixels x form.2) w] := by
  obtain ⟨registry, tuning⟩ := unit.tune_ok working.units
  have tuned := working.tuned calibration registry tuning
  obtain ⟨chosen, member, shape⟩ := Matching.exists_of_forall₂ (List.Forall₂.flip tuned.sentences)
    sentence.mem_sentenceParts
  obtain ⟨words, tail, flat⟩ : ∃ words, List.Forall₂ (Fits registry.alternatives config)
      sentence.tailParts words ∧ words.flatten = (sentence.tail weight).toList :=
    sentence.tail_fits weighs
  have fit : List.Forall₂ (Fits registry.alternatives config)
      (chosen.pattern.items.map Item.part)
      (sentence.lead.toList :: (number.toList ++ ' ' :: form.1.toList) :: words) := by
    rw [shape.parts]
    exact .cons (.literal _) (.cons (tuned.size_fits unit numeral isForm) tail)
  have text : (sentence.script number form.1 weight).toList =
      (sentence.lead.toList :: (number.toList ++ ' ' :: form.1.toList) :: words).flatten := by
    simp [sentence.script_toList, flat]
  obtain ⟨root, node, parsed, alone, shown, whole⟩ := Matching.parse_fitting
    (tuned.acyclic unit _) member fit text sentence.script_begins sentence.script_ends
  -- It was read by this sentence, since it begins like it.
  obtain ⟨reading, listed, given, shows⟩ := exists_reading tuned shown
  have begins := whole ▸ leadOf_isPrefix shows
  obtain rfl := reading_unique listed sentence.mem_sentenceParts begins sentence.lead_isPrefix
  rw [working.run_ok_iff host]
  refine ⟨root, ?_, ?_⟩
  · obtain ⟨parser, world⟩ := workplace
    rw [working.parse_tuned tuning, parsed]
    rfl
  · have listed : node ∈ root.sentences := by simp [alone]
    have unclipped := Matching.sentence_unclipped parsed small listed
    rw [alone]
    refine .cons ?_ .nil
    exact SizedSentence.operation_eq unclipped given shows weighs heavy
      (whole.trans sentence.script_toList) fun child unclipped isSize covers =>
        tuned.sizeOf_eq unit unclipped isSize numeral size isForm covers

/-- Whatever was done with a parser before, in scripts of less than `2 ^ 32` bytes a size in the unit
of the calibration is converted to pixels, and a size in pixels stays as it is. -/
theorem run_sized_sentence (config : Config) {calibration : Calibration}
    (unit : IsPhysicalUnit calibration.unit) (sentence : SizedSentence) {number weight : String}
    (numeral : number.toList ∈ Numeral.float) (weighs : weight.toList ∈ Numeral.float) :
    ∃ (start : Parser (Rule ε) κ (World τ)) (x w : Float), parser config = .ok start ∧
      Decimal.readFloat? number.toList = some x ∧ Decimal.readFloat? weight.toList = some w ∧
      ∀ (first : Calibration) (beside : τ) (actions : List Action),
        calibrationAfter first actions = calibration →
        let before :=
          actions.foldl (Action.perform host) (start, ⟨{ calibration := first }, beside⟩)
        (Text.byteSize (sentence.script number calibration.unit weight).toList < 2 ^ 32 →
          ((run host (sentence.script number calibration.unit weight)).run before).1 =
            .ok [sentence.operation (calibration.toPixels x true) w]) ∧
        (Text.byteSize (sentence.script number "pixel(s)" weight).toList < 2 ^ 32 →
          ((run host (sentence.script number "pixel(s)" weight)).run before).1 =
            .ok [sentence.operation (calibration.toPixels x false) w]) := by
  obtain ⟨start, base, made, working⟩ := exists_start (ε := ε) (κ := κ) (τ := τ) config
  obtain ⟨x, size⟩ := Option.isSome_iff_exists.mp (Decimal.readFloat?_isSome numeral)
  obtain ⟨w, heavy⟩ := Option.isSome_iff_exists.mp (Decimal.readFloat?_isSome weighs)
  refine ⟨start, x, w, made, size, heavy, fun first beside actions latest => ?_⟩
  have before := latest ▸ (working first beside).perform host actions
  have physical : (calibration.unit, true) ∈ unitForms calibration := by simp [unitForms]
  have pixels : ("pixel(s)", false) ∈ unitForms calibration := by simp [unitForms]
  exact ⟨before.run_sized host unit physical sentence numeral weighs size heavy,
    before.run_sized host unit pixels sentence numeral weighs size heavy⟩

/-- A unit that begins like pixels, with blanks and a full stop in it. -/
theorem run_sized_sentence_film : ∃ (start : Parser (Rule Empty) Empty (World Unit)) (x w : Float),
    parser {} = .ok start ∧
      Decimal.readFloat? "2".toList = some x ∧ Decimal.readFloat? "0.5".toList = some w ∧
      Text.byteSize (SizedSentence.unsharpMask.script "2" "pixel(s) of film. " "0.5").toList <
        2 ^ 32 ∧
      let calibration : Calibration := ⟨"pixel(s) of film. ", 0.25⟩
      ((run nofun (SizedSentence.unsharpMask.script "2" "pixel(s) of film. " "0.5")).run
          (start, ⟨{ calibration }, ()⟩)).1 =
        .ok [.unsharpMask (calibration.toPixels x true) w] := by
  have unit : IsPhysicalUnit "pixel(s) of film. " :=
    ⟨by decide, by decide, by decide, by simp [Special]⟩
  have number : "2".toList ∈ Numeral.float := Numeral.isFloat_iff.mp (by decide)
  have weight : "0.5".toList ∈ Numeral.float := Numeral.isFloat_iff.mp (by decide)
  obtain ⟨start, x, w, made, size, heavy, runs⟩ := run_sized_sentence (ε := Empty) (κ := Empty)
    (τ := Unit) nofun {} (show IsPhysicalUnit (Calibration.unit ⟨"pixel(s) of film. ", 0.25⟩) from
      unit) .unsharpMask number weight
  have small : Text.byteSize
      (SizedSentence.unsharpMask.script "2" "pixel(s) of film. " "0.5").toList < 2 ^ 32 := by
    decide +kernel
  exact ⟨start, x, w, made, size, heavy, small, (runs _ () [] rfl).1 small⟩

end

end Preprocess
end SentenceGrammar
