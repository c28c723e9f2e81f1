import SentenceGrammar.Proofs.PreprocessRuns

/-!
# Errors of evaluation

Whatever the calibration is, names in a script of the preprocessing language always lead to the nodes
that are meant, and all values are of the types that are wanted. So only a number can have no value.
As long as spans cut no number off, it is an integer that does not fit into 64 bits: every float has a
value.
-/
namespace SentenceGrammar.Preprocess

open Decimal (leastInt64 greatestInt64)
open Matching (Shows)

variable {ε κ τ : Type}

/-- The first of the named integers of a sentence that does not fit into 64 bits, and the error that
it is reported with. -/
inductive Overflow (sentence : Node (Rule ε) κ) : List String → EvalError → Prop where
  | here {name : String} {names : List String} {path : Node.Path} {number : Node (Rule ε) κ}
      {value : Int} (found : sentence.find? name = some (path, number))
      (kind : number.kind = .builtin .int) (denotes : Numeral.DenotesInt number.text.toList value)
      (outside : ¬(leastInt64 ≤ value ∧ value ≤ greatestInt64)) :
      Overflow sentence (name :: names) (.invalidNumber number.text .int number.span)
  | later {name : String} {names : List String} {path : Node.Path} {number : Node (Rule ε) κ}
      {value : Int} {error : EvalError} (found : sentence.find? name = some (path, number))
      (kind : number.kind = .builtin .int) (denotes : Numeral.DenotesInt number.text.toList value)
      (inside : leastInt64 ≤ value ∧ value ≤ greatestInt64)
      (others : Overflow sentence names error) : Overflow sentence (name :: names) error

/-- The sentence is one about local contrast with an integer that does not fit into 64 bits. -/
def FailsWith (sentence : Node (Rule ε) κ) (error : EvalError) : Prop :=
  sentence.evaluator? = some .localContrast ∧
    Overflow sentence ["block-size", "bins", "slope"] error

/-- If the result is an error, then that of a number. -/
def FailsOnNumbers {α : Type} (result : Except EvalError α) : Prop :=
  ∀ error, result = .error error → ∃ text type span, error = .invalidNumber text type span

/-! ### Numbers that fail -/

namespace FailsOnNumbers

variable {registry : Registry (Rule ε) κ} {config : Config} {calibration : Calibration}
  {node : Node (Rule ε) κ} {parts : List Part} {name : String}

theorem ok {α : Type} (x : α) : FailsOnNumbers (.ok x) := by
  rintro error ⟨⟩

theorem number {α : Type} (text : String) (type : ValueType) (span : Span) :
    FailsOnNumbers (.error (.invalidNumber text type span) : Except EvalError α) := by
  rintro _ ⟨⟩
  exact ⟨text, type, span, rfl⟩

theorem bind {α β : Type} {result : Except EvalError α} {next : α → Except EvalError β}
    (first : FailsOnNumbers result) (others : ∀ x, FailsOnNumbers (next x)) :
    FailsOnNumbers (result >>= next) := by
  cases result with
  | ok x => exact others x
  | error error =>
    rintro _ ⟨⟩
    exact first error rfl

theorem map {α β : Type} {result : Except EvalError α} (first : FailsOnNumbers result)
    (f : α → β) : FailsOnNumbers (result.map f) := by
  cases result with
  | ok x => exact .ok (f x)
  | error error =>
    rintro _ ⟨⟩
    exact first error rfl

theorem float (node : Node (Rule ε) κ) : FailsOnNumbers (floatOf node) := by
  cases read : Decimal.readFloat? node.text.toList with
  | some x =>
    rw [floatOf_of_read read]
    exact .ok x
  | none =>
    rw [floatOf_of_unread read]
    exact .number _ _ _

theorem int (node : Node (Rule ε) κ) : FailsOnNumbers (intOf node) := by
  cases read : Decimal.readInt64? node.text.toList with
  | some n =>
    rw [intOf_of_read read]
    exact .ok n
  | none =>
    rw [intOf_of_unread read]
    exact .number _ _ _

theorem size (tuned : Tuned calibration registry)
    (shows : Shows registry.alternatives config (.slot name (.named "filter-size") .one) node) :
    FailsOnNumbers (sizeOf calibration node) := by
  obtain ⟨number, unit, size⟩ := size_parts tuned shows
  obtain ⟨first, foundNumber⟩ := size.foundNumber
  obtain ⟨second, foundUnit⟩ := size.foundUnit
  rw [sizeOf_eq foundNumber foundUnit]
  exact (float number).map _

/-- Names lead to nodes. -/
theorem part {α : Type} {wanted : Part} {next : Node (Rule ε) κ → Except EvalError α}
    (shows : List.Forall₂ (Shows registry.alternatives config) parts node.children)
    (named : parts.find? (fun part => part.name? = some name) = some wanted)
    (others : ∀ child, Shows registry.alternatives config wanted child →
      FailsOnNumbers (next child)) : FailsOnNumbers (part node name >>= next) := by
  obtain ⟨index, child, found, shown⟩ := Matching.find?_of_shows name shows named
  rw [part_bind found]
  exact others child shown

end FailsOnNumbers

/-- The evaluation of a sentence only fails on its numbers. -/
theorem operation_failsOnNumbers {registry : Registry (Rule ε) κ} {config : Config}
    {calibration : Calibration} {sentence : Node (Rule ε) κ} (tuned : Tuned calibration registry)
    (shown : Matching.ShowsSentence registry config sentence) :
    FailsOnNumbers (operation calibration sentence) := by
  obtain ⟨reading, member, given, shows⟩ := exists_reading tuned shown
  have sized {name : String} {next : Float → Except EvalError Operation}
      (named : reading.1.find? (fun part => part.name? = some name) =
        some (.slot name (.named "filter-size") .one)) (others : ∀ x, FailsOnNumbers (next x)) :
      FailsOnNumbers (part sentence name >>= fun child => sizeOf calibration child >>= next) :=
    .part shows named fun _ size => (FailsOnNumbers.size tuned size).bind others
  rw [operation, given]
  simp only [sentenceParts, List.mem_cons, List.not_mem_nil, or_false] at member
  rcases member with rfl | rfl | rfl | rfl | rfl | rfl | rfl <;> dsimp only at shows ⊢
  · exact sized rfl fun _ => .ok _
  · exact sized rfl fun _ => .ok _
  · exact .ok _
  · exact sized rfl fun _ => .ok _
  · exact sized rfl fun _ => .ok _
  · exact sized rfl fun _ => .part shows rfl fun child _ => (FailsOnNumbers.float child).bind
      fun _ => .ok _
  · exact .part shows rfl fun child _ => (FailsOnNumbers.int child).bind fun _ =>
      .part shows rfl fun child _ => (FailsOnNumbers.int child).bind fun _ =>
      .part shows rfl fun child _ => (FailsOnNumbers.int child).bind fun _ =>
      .part shows rfl fun child _ => .bind (.ok child.text) fun _ => .ok _

/-! ### Numbers that are evaluated -/

theorem floatOf_ok {number : Node (Rule ε) κ} (unclipped : number.Unclipped)
    (numeral : number.covered.toList ∈ Numeral.float) : ∃ x, floatOf number = .ok x := by
  obtain ⟨x, read⟩ := Option.isSome_iff_exists.mp (Decimal.readFloat?_isSome numeral)
  rw [← unclipped.text_eq] at read
  exact ⟨x, floatOf_of_read read⟩

section

variable {registry : Registry (Rule ε) κ} {config : Config} {calibration : Calibration}
  {sentence : Node (Rule ε) κ} {parts : List Part} {name : String}

theorem size_ok {next : Float → Except EvalError Operation} (tuned : Tuned calibration registry)
    (unclipped : sentence.Unclipped)
    (shows : List.Forall₂ (Shows registry.alternatives config) parts sentence.children)
    (named : parts.find? (fun part => part.name? = some name) =
      some (.slot name (.named "filter-size") .one))
    (others : ∀ x, ∃ op, next x = .ok op) :
    ∃ op, (part sentence name >>= fun child => sizeOf calibration child >>= next) = .ok op := by
  obtain ⟨index, size, found, shown⟩ := Matching.find?_of_shows name shows named
  obtain ⟨number, unit, size⟩ := size_parts tuned shown
  obtain ⟨first, foundNumber⟩ := size.foundNumber
  obtain ⟨second, foundUnit⟩ := size.foundUnit
  obtain ⟨x, value⟩ := floatOf_ok ((unclipped.of_find? found).of_find? foundNumber) size.numeral
  obtain ⟨op, done⟩ := others (calibration.toPixels x (isPhysical unit))
  refine ⟨op, ?_⟩
  rw [part_bind found, sizeOf_eq foundNumber foundUnit, value]
  exact done

theorem float_ok {next : Float → Except EvalError Operation} (unclipped : sentence.Unclipped)
    (shows : List.Forall₂ (Shows registry.alternatives config) parts sentence.children)
    (named : parts.find? (fun part => part.name? = some name) =
      some (.slot name (.builtin .float) .one))
    (others : ∀ x, ∃ op, next x = .ok op) :
    ∃ op, (part sentence name >>= fun child => floatOf child >>= next) = .ok op := by
  obtain ⟨index, number, found, shown⟩ := Matching.find?_of_shows name shows named
  obtain ⟨x, value⟩ := floatOf_ok (unclipped.of_find? found) (shown.number rfl).2
  obtain ⟨op, done⟩ := others x
  refine ⟨op, ?_⟩
  rw [part_bind found, value]
  exact done

theorem text_ok {set : CharClass} {quantifier : Quantifier}
    {next : String → Except EvalError Operation}
    (shows : List.Forall₂ (Shows registry.alternatives config) parts sentence.children)
    (named : parts.find? (fun part => part.name? = some name) =
      some (.slot name (.charClass set) quantifier))
    (others : ∀ text, ∃ op, next text = .ok op) :
    ∃ op, (part sentence name >>= fun child => textOf child >>= next) = .ok op := by
  obtain ⟨index, child, found, -⟩ := Matching.find?_of_shows name shows named
  rw [part_bind found]
  exact others child.text

/-- An integer is evaluated unless it does not fit into 64 bits, and then the others are. -/
theorem int_error_iff {names : List String} {next : Int → Except EvalError Operation}
    {error : EvalError} (unclipped : sentence.Unclipped)
    (shows : List.Forall₂ (Shows registry.alternatives config) parts sentence.children)
    (named : parts.find? (fun part => part.name? = some name) =
      some (.slot name (.builtin .int) .one))
    (others : ∀ n, next n = .error error ↔ Overflow sentence names error) :
    (part sentence name >>= fun child => intOf child >>= next) = .error error ↔
      Overflow sentence (name :: names) error := by
  obtain ⟨index, number, found, shown⟩ := Matching.find?_of_shows name shows named
  obtain ⟨kind, numeral⟩ := shown.number rfl
  rw [← (unclipped.of_find? found).text_eq] at numeral
  rw [part_bind found]
  cases read : Decimal.readInt64? number.text.toList with
  | none =>
    obtain ⟨value, denotes, outside⟩ := Decimal.out_of_range numeral read
    rw [intOf_of_unread read]
    change Except.error _ = _ ↔ _
    constructor
    · rintro ⟨⟩
      exact .here found kind denotes outside
    · intro overflow
      cases overflow with
      | here foundThere =>
        cases found.symm.trans foundThere
        rfl
      | later foundThere _ denotesThere inside =>
        cases found.symm.trans foundThere
        exact absurd (denotes.unique denotesThere ▸ inside) outside
  | some value =>
    obtain ⟨denotes, inside⟩ := Decimal.readInt64?_eq_some_iff.mp read
    rw [intOf_of_read read]
    change next value = _ ↔ _
    rw [others]
    constructor
    · exact .later found kind denotes inside
    · intro overflow
      cases overflow with
      | here foundThere _ denotesThere outside =>
        cases found.symm.trans foundThere
        exact absurd (denotes.unique denotesThere ▸ inside) outside
      | later foundThere _ _ _ further => exact further

/-! ### Sentences -/

/-- A sentence has an operation unless an integer does not fit into 64 bits. -/
theorem operation_error_iff (tuned : Tuned calibration registry) (unclipped : sentence.Unclipped)
    (shown : Matching.ShowsSentence registry config sentence) (error : EvalError) :
    operation calibration sentence = .error error ↔ FailsWith sentence error := by
  obtain ⟨reading, member, given, shows⟩ := exists_reading tuned shown
  have fine {result : Except EvalError Operation} (ok : ∃ op, result = .ok op) :
      result ≠ .error error := by
    obtain ⟨op, rfl⟩ := ok
    intro fails
    cases fails
  have other {rule : Rule ε} {result : Except EvalError Operation} (differs : rule ≠ .localContrast)
      (ok : ∃ op, result = .ok op) : result = .error error ↔
        some rule = some .localContrast ∧
          Overflow sentence ["block-size", "bins", "slope"] error :=
    iff_of_false (fine ok) fun both => differs (Option.some.inj both.1)
  rw [FailsWith, operation, given]
  simp only [sentenceParts, List.mem_cons, List.not_mem_nil, or_false] at member
  rcases member with rfl | rfl | rfl | rfl | rfl | rfl | rfl <;> dsimp only at shows ⊢
  · exact other (by simp) (size_ok tuned unclipped shows rfl fun _ => ⟨_, rfl⟩)
  · exact other (by simp) (size_ok tuned unclipped shows rfl fun _ => ⟨_, rfl⟩)
  · exact other (by simp) ⟨_, rfl⟩
  · exact other (by simp) (size_ok tuned unclipped shows rfl fun _ => ⟨_, rfl⟩)
  · exact other (by simp) (size_ok tuned unclipped shows rfl fun _ => ⟨_, rfl⟩)
  · exact other (by simp) (size_ok tuned unclipped shows rfl fun _ =>
      float_ok unclipped shows rfl fun _ => ⟨_, rfl⟩)
  · rw [and_iff_right rfl]
    exact int_error_iff unclipped shows rfl fun _ => int_error_iff unclipped shows rfl fun _ =>
      int_error_iff unclipped shows rfl fun _ =>
        iff_of_false (fine (text_ok shows rfl fun _ => ⟨_, rfl⟩)) (by rintro ⟨⟩)

theorem exists_operation_iff (tuned : Tuned calibration registry) (unclipped : sentence.Unclipped)
    (shown : Matching.ShowsSentence registry config sentence) :
    (∃ op, operation calibration sentence = .ok op) ↔ ∀ error, ¬FailsWith sentence error := by
  simp only [← operation_error_iff tuned unclipped shown]
  cases operation calibration sentence <;> simp

end

/-! ### Runs -/

section

variable [DecidableEq ε] [DecidableEq κ] (host : Host ε κ τ)

theorem Working.run_failsOnNumbers {base : Registry (Rule ε) κ} {config : Config}
    {calibration : Calibration} {workplace : Workplace ε κ τ}
    (working : Working base config calibration workplace) {script : String} {error : EvalError}
    (failed : ((Preprocess.run host script).run workplace).1 = .error (.eval error)) :
    ∃ text type span, error = .invalidNumber text type span := by
  obtain ⟨root, parsed, front, sentence, back, split, -, fails⟩ :=
    (working.run_eval_iff host script error).mp failed
  obtain ⟨registry, tuned, read⟩ := working.exists_tuned parsed
  have listed : sentence ∈ root.sentences := by simp [split]
  exact operation_failsOnNumbers tuned ((Matching.parse_sentences read).2 sentence listed) error fails

theorem Working.run_error_iff {base : Registry (Rule ε) κ} {config : Config}
    {calibration : Calibration} {workplace : Workplace ε κ τ}
    (working : Working base config calibration workplace) {script : String}
    (small : Text.byteSize script.toList < 2 ^ 32) (error : EvalError) :
    ((Preprocess.run host script).run workplace).1 = .error (.eval error) ↔
      ∃ root, ((Parser.parse script).run.run workplace).1 = .ok root ∧
        ∃ front sentence back, root.sentences = front ++ sentence :: back ∧
          (∀ earlier ∈ front, ∀ other, ¬FailsWith earlier other) ∧ FailsWith sentence error := by
  rw [working.run_eval_iff]
  refine exists_congr fun root => and_congr_right fun parsed => ?_
  obtain ⟨registry, tuned, read⟩ := working.exists_tuned parsed
  have shown := (Matching.parse_sentences read).2
  refine exists_congr fun front => exists_congr fun sentence => exists_congr fun back =>
    and_congr_right fun split => and_congr ?_ ?_
  · refine forall₂_congr fun earlier member => ?_
    have listed : earlier ∈ root.sentences := by simp [split, member]
    exact exists_operation_iff tuned (Matching.sentence_unclipped read small listed)
      (shown earlier listed)
  · have listed : sentence ∈ root.sentences := by simp [split]
    exact operation_error_iff tuned (Matching.sentence_unclipped read small listed)
      (shown sentence listed) error

/-- Under any calibration and configuration, the evaluation of a script only fails on a number. If the
script is of less than `2 ^ 32` bytes, it is an integer that does not fit into 64 bits: the first one
of its sentence, in the first sentence with such an integer. -/
theorem eval_error_iff (config : Config) :
    ∃ start : Parser (Rule ε) κ (World τ), parser config = .ok start ∧
      ∀ (first : Calibration) (beside : τ) (actions : List Action) (script : String)
        (error : EvalError),
        let before := actions.foldl (Action.perform host) (start, ⟨{ calibration := first }, beside⟩)
        (((run host script).run before).1 = .error (.eval error) →
          ∃ text type span, error = .invalidNumber text type span) ∧
        (Text.byteSize script.toList < 2 ^ 32 →
          (((run host script).run before).1 = .error (.eval error) ↔
            ∃ root, ((Parser.parse script).run.run before).1 = .ok root ∧
              ∃ front sentence back, root.sentences = front ++ sentence :: back ∧
                (∀ earlier ∈ front, ∀ other, ¬FailsWith earlier other) ∧
                FailsWith sentence error)) := by
  obtain ⟨start, base, made, working⟩ := exists_start (ε := ε) (κ := κ) (τ := τ) config
  refine ⟨start, made, fun first beside actions script error => ?_⟩
  have before := (working first beside).perform host actions
  exact ⟨before.run_failsOnNumbers host, fun small => before.run_error_iff host small error⟩

/-- A sentence with a block size that is just too large. -/
def hugeBlocks : String :=
  "Enhance local contrast via CLAHE with a blocksize of 9223372036854775808, " ++
    "2 histogram bins and a max slope of 3, using cells as a mask."

/-- How the block size is reported. -/
def hugeBlocksError : EvalError := .invalidNumber "9223372036854775808" .int ⟨53, 72⟩

theorem eval_error_iff_hugeBlocks :
    ∃ start : Parser (Rule Empty) Empty (World Unit), parser {} = .ok start ∧
      Text.byteSize hugeBlocks.toList < 2 ^ 32 ∧
        ((run Empty.elim hugeBlocks).run (start, ⟨{}, ()⟩)).1 = .error (.eval hugeBlocksError) ∧
          ∃ root, ((Parser.parse hugeBlocks).run.run (start, ⟨{}, ()⟩)).1 = .ok root ∧
            ∃ front sentence back, root.sentences = front ++ sentence :: back ∧
              (∀ earlier ∈ front, ∀ other, ¬FailsWith earlier other) ∧
              FailsWith sentence hugeBlocksError := by
  have small : Text.byteSize hugeBlocks.toList < 2 ^ 32 := by decide +kernel
  have reported : (parser (ε := Empty) (κ := Empty) (τ := Unit) {}).map (fun start =>
      ((run Empty.elim hugeBlocks).run (start, ⟨{}, ()⟩)).1.map fun _ => ()) =
        .ok (.error (.eval hugeBlocksError)) := by
    decide +kernel
  obtain ⟨start, made, fails⟩ := eval_error_iff (ε := Empty) (κ := Empty) (τ := Unit) Empty.elim {}
  rw [made] at reported
  have ended : ((run Empty.elim hugeBlocks).run (start, ⟨{}, ()⟩)).1 =
      .error (.eval hugeBlocksError) := by
    have reported := Except.ok.inj reported
    cases result : ((run Empty.elim hugeBlocks).run (start, ⟨{}, ()⟩)).1 with
    | ok recorded => simp [result, Except.map] at reported
    | error error => simpa [result, Except.map] using reported
  exact ⟨start, made, small, ended, ((fails {} () [] hugeBlocks hugeBlocksError).2 small).mp ended⟩
end

end SentenceGrammar.Preprocess
