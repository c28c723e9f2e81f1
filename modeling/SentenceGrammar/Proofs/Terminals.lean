import SentenceGrammar.Proofs.Enumeration
import SentenceGrammar.Proofs.SearchLogic

/-!
# Reading terminals

Literals, runs and numbers are read as the words of their languages, the longest one first. Nothing
is remembered on the way, so this holds after whatever was read before.
-/
namespace SentenceGrammar

/-- What is noted where something of the target is missing. -/
def Target.expected : Target → Expected
  | .builtin type => .builtin type
  | .charClass set => .charClass set.source
  | .named type => .undefinedType type

theorem Target.expected_plain (target : Target) (text : String) :
    target.expected ≠ .literal text := by
  cases target <;> exact nofun

namespace Matching

open Enumerate

variable {ε κ : Type} {kept : Known ε κ → Prop} {scope : Scope ε κ} {start : Cursor}

theorem readLiteral_words (text : String) :
    Ensures kept (readLiteral scope text start) fun readings =>
      readings.whole = words (· == text.toList) none (.literal text) start := by
  have stops := scanLiteral_stops text.toList start
  rw [readLiteral, words, ← stops]
  cases scanLiteral text.toList start with
  | whole stop => exact .pure rfl
  | ended missing => exact .afterExpect (.pure rfl)
  | differs place missing => exact .afterExpect (.pure rfl)

theorem readRun_words (slot : Placeholder) (accepts : Char → Bool) (expected : Expected)
    (kind : NodeKind ε κ) :
    Ensures kept (readRun scope slot accepts expected kind start) fun readings =>
      readings.whole = words
        (fun word => word.all accepts && slot.quantifier.admits word.length) (some slot.name) kind
        start := by
  rw [words, ← scanRun_stops, readRun]
  split
  next scan extendable scanned =>
    rw [scanned]
    dsimp only
    split
    · exact .afterExpect (.pure rfl)
    · exact .pure rfl

theorem readNumber_words (slot : Placeholder) {type : Builtin} (numeric : type.accepts? = none) :
    Ensures kept (readNumber scope slot type start) fun readings =>
      readings.whole = words (Numeral.accepts type) (some slot.name) (.builtin type) start := by
  rw [words, ← scanNumber_stops numeric, readNumber]
  dsimp only
  split
  · exact .afterExpect (.pure rfl)
  · exact .pure rfl

theorem readSeparator_openings (done : Nat) :
    Ensures kept (readSeparator scope done start) fun readings =>
      readings.whole = openings scope.config done start := by
  rw [readSeparator, openings]
  cases scope.config.repetition.separator? with
  | none => exact .pure rfl
  | some separator =>
    dsimp only
    split
    · exact .pure rfl
    · refine (readLiteral_words separator).bind fun readings read => ?_
      rw [read]
      exact .pure rfl

/-- Single characters are no literals. -/
theorem runKind_terminal (slot : Placeholder) :
    slot.runKind (ε := ε) (κ := κ) = .run ∨
      ∃ type, slot.runKind (ε := ε) (κ := κ) = .builtin type := by
  rw [Placeholder.runKind]
  split
  · split
    · exact .inr ⟨_, rfl⟩
    · exact .inl rfl
  all_goals exact .inl rfl

theorem runKind_plain (slot : Placeholder) (text : String) :
    slot.runKind (ε := ε) (κ := κ) ≠ .literal text := by
  rcases runKind_terminal slot with same | ⟨type, same⟩ <;> rw [same] <;> exact nofun

theorem readPlaceholder_run (scope : Scope ε κ) (named : TypeReader ε κ) {slot : Placeholder}
    {accepts : Char → Bool} (start : Cursor) (single : slot.target.single? = some accepts) :
    readPlaceholder scope named slot start =
      readRun scope slot accepts slot.target.expected slot.runKind start := by
  cases target : slot.target with
  | builtin type =>
    have known : type.accepts? = some accepts := by simpa [target, Target.single?] using single
    simp [readPlaceholder, target, known, Placeholder.runKind, Target.expected]
  | charClass set =>
    obtain rfl : set.contains = accepts := by simpa [target, Target.single?] using single
    simp [readPlaceholder, target, Placeholder.runKind, Target.expected]
  | named type => simp [target, Target.single?] at single

theorem readPlaceholder_several {named : TypeReader ε κ} {slot : Placeholder}
    (several : slot.target.single? = none) :
    readPlaceholder scope named slot start =
      if slot.quantifier = .one then readUnit scope named slot start
      else readRepetition scope named slot start := by
  cases target : slot.target with
  | builtin type =>
    have numeric : type.accepts? = none := by simpa [target, Target.single?] using several
    simp [readPlaceholder, target, numeric]
  | charClass set => simp [target, Target.single?] at several
  | named type => simp [readPlaceholder, target]

end Matching
end SentenceGrammar
