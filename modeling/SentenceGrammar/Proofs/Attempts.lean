import SentenceGrammar.Completion.Decision
import SentenceGrammar.Proofs.Refinement

/-!
# Attempts

At the terminals of a grammar, a search attempts to read the text. Such an attempt may note what
would have been accepted at the place that it got to, and it may be cut off by the end of the text.
Which attempts are made is said here without any search: an item is attempted behind every reading of
the items in front of it, and a type everywhere where it may be used, but not within itself at the
same place.
-/
namespace SentenceGrammar

variable {ε κ : Type}

/-! ### Open leaves -/

namespace Node

/-- The innermost node of the chain of incomplete nodes at the end of several nodes. -/
def openLeaf? (nodes : List (Node ε κ)) : Option (Node ε κ) := (openChainLast nodes).getLast?

theorem openChain_eq (node : Node ε κ) : node.openChain = node :: openChainLast node.children := by
  cases node
  rw [openChain]

theorem openChainLast_append (front : List (Node ε κ)) {back : List (Node ε κ)} (some : back ≠ []) :
    openChainLast (front ++ back) = openChainLast back := by
  induction front with
  | nil => rfl
  | cons node rest ih =>
    rw [List.cons_append, ← ih]
    obtain ⟨next, others, shape⟩ := List.exists_cons_of_ne_nil
      (List.append_ne_nil_of_right_ne_nil rest some)
    rw [shape, openChainLast]

/-- What is in front of other nodes does not matter. -/
theorem openLeaf?_append {front back : List (Node ε κ)} {leaf : Node ε κ}
    (last : openLeaf? back = some leaf) : openLeaf? (front ++ back) = some leaf := by
  have some : back ≠ [] := by
    rintro rfl
    cases last
  rw [openLeaf?, openChainLast_append front some]
  exact last

theorem openChainLast_cutOff (start : Cursor) (name : Option String) (kind : NodeKind ε κ)
    (children : List (Node ε κ)) :
    openChainLast [cutOff start name kind children] =
      cutOff start name kind children :: openChainLast children := by
  rw [openChainLast, if_neg (by simp [cutOff]), openChain_eq]
  rfl

/-- A node that was cut off within has the same open leaf as what is within. -/
theorem openLeaf?_cutOff {start : Cursor} {name : Option String} {kind : NodeKind ε κ}
    {children : List (Node ε κ)} {leaf : Node ε κ} (last : openLeaf? children = some leaf) :
    openLeaf? [cutOff start name kind children] = some leaf := by
  rw [openLeaf?, openChainLast_cutOff, List.getLast?_cons, ← openLeaf?, last]
  rfl

end Node

namespace Matching

/-! ### Terminals -/

/-- An attempt to read a terminal at a place. -/
structure Attempt (ε κ : Type) where
  start : Cursor
  /-- The placeholder that it is to fill; none for a literal. -/
  slot : Option Placeholder
  kind : NodeKind ε κ
  /-- Where it is noted that something else would have been accepted. -/
  noted : Option Cursor
  /-- Whether the end of the text cut it off. -/
  ended : Bool

def Attempt.name (attempt : Attempt ε κ) : Option String := attempt.slot.map Placeholder.name

/-- What is left of the attempt if it is cut off. -/
def Attempt.leaf (attempt : Attempt ε κ) : Node ε κ :=
  .cutOff attempt.start attempt.name attempt.kind []

def literalAttempt (text : String) (start : Cursor) : Attempt ε κ :=
  match scanLiteral text.toList start with
  | .whole _ => ⟨start, none, .literal text, none, false⟩
  | .ended _ => ⟨start, none, .literal text, some start.finish, true⟩
  | .differs place _ => ⟨start, none, .literal text, some place, false⟩

section

variable (text : String) (start : Cursor)

theorem literalAttempt_start : (literalAttempt (ε := ε) (κ := κ) text start).start = start := by
  rw [literalAttempt]
  split <;> rfl

theorem literalAttempt_slot : (literalAttempt (ε := ε) (κ := κ) text start).slot = none := by
  rw [literalAttempt]
  split <;> rfl

theorem literalAttempt_kind :
    (literalAttempt (ε := ε) (κ := κ) text start).kind = .literal text := by
  rw [literalAttempt]
  split <;> rfl

end

def runAttempt (slot : Placeholder) (accepts : Char → Bool) (start : Cursor) : Attempt ε κ :=
  let (scan, extendable) := scanRun slot.quantifier accepts [] 0 start.offset start.rest
  ⟨start, some slot, slot.runKind, if extendable then some scan.reached else none,
    extendable && scan.reached.rest.isEmpty⟩

def numberAttempt (slot : Placeholder) (type : Builtin) (start : Cursor) : Attempt ε κ :=
  let scan := scanNumber (type = .float) start
  ⟨start, some slot, .builtin type,
    if scan.stops = [] ∨ scan.reached.rest = [] then some scan.reached else none,
    scan.reached.rest.isEmpty⟩

/-! ### Items and types -/

/-- The type and the place within which something is read; none for sentences. -/
abbrev Context := Option (String × Cursor)

/-- The readings of types within another one, which has none in itself at the same place. -/
def within (context : Context) (ask : String → Cursor → List (TypeReading ε κ)) :
    String → Cursor → List (TypeReading ε κ) :=
  match context with
  | none => ask
  | some (name, start) => Enumerate.avoiding name start ask

theorem mem_within {context : Context} {ask : String → Cursor → List (TypeReading ε κ)}
    {name : String} {start : Cursor} {reading : TypeReading ε κ} :
    reading ∈ within context ask name start ↔
      context ≠ some (name, start) ∧ reading ∈ ask name start := by
  cases context with
  | none => simp [within]
  | some pair =>
    simp only [within, Enumerate.avoiding, ne_eq, Option.some.injEq, Prod.ext_iff, eq_comm]
    split
    next same => simp [same]
    next differs => simp [differs]

theorem within_sound {rules : String → List (Alternative ε κ)} {config : Config}
    {ask : String → Cursor → List (TypeReading ε κ)} (sound : Sound rules config ask)
    (context : Context) : Sound rules config (within context ask) :=
  fun name place reading member => sound name place reading (mem_within.mp member).2

variable (rules : String → List (Alternative ε κ)) (config : Config)
  (ask : String → Cursor → List (TypeReading ε κ))

mutual

/-- Attempts at a number, or at a registered type. -/
inductive TriesUnit : Context → Placeholder → Cursor → Attempt ε κ → Prop where
  | number {context : Context} {slot : Placeholder} {type : Builtin} (start : Cursor)
      (target : slot.target = .builtin type) :
      TriesUnit context slot start (numberAttempt slot type start)
  | type {context : Context} {slot : Placeholder} {name : String} {start : Cursor}
      {attempt : Attempt ε κ} (target : slot.target = .named name)
      (other : context ≠ some (name, start)) (inner : TriesType name start attempt) :
      TriesUnit context slot start attempt

/-- Attempts at further units and at their separators, after a count of them. -/
inductive TriesUnits : Context → Placeholder → Nat → Cursor → Attempt ε κ → Prop where
  | separator {context : Context} {slot : Placeholder} {count : Nat} {text : String} (start : Cursor)
      (more : slot.quantifier.allowsMore count = true) (further : count ≠ 0)
      (separator : config.repetition.separator? = some text) :
      TriesUnits context slot count start (literalAttempt text start)
  | here {context : Context} {slot : Placeholder} {count : Nat} {start : Cursor}
      {opening : Chain ε κ} {attempt : Attempt ε κ}
      (more : slot.quantifier.allowsMore count = true)
      (opened : opening ∈ Enumerate.openings config count start)
      (first : TriesUnit context slot opening.stop attempt) :
      TriesUnits context slot count start attempt
  | later {context : Context} {slot : Placeholder} {count : Nat} {start : Cursor}
      {opening : Chain ε κ} {found : Reading ε κ} {attempt : Attempt ε κ}
      (more : slot.quantifier.allowsMore count = true)
      (opened : opening ∈ Enumerate.openings config count start)
      (read : found ∈ Enumerate.unit (within context ask) slot opening.stop)
      (moved : found.stop.rest.length < start.rest.length)
      (others : TriesUnits context slot (count + 1) found.stop attempt) :
      TriesUnits context slot count start attempt

/-- Attempts at one item of a pattern. -/
inductive TriesItem : Context → Item → Cursor → Attempt ε κ → Prop where
  | literal {context : Context} {text : String} {span : Span} (start : Cursor) :
      TriesItem context (.literal text span) start (literalAttempt text start)
  | run {context : Context} {slot : Placeholder} {accepts : Char → Bool} (start : Cursor)
      (target : slot.target.single? = some accepts) :
      TriesItem context (.placeholder slot) start (runAttempt slot accepts start)
  | single {context : Context} {slot : Placeholder} {start : Cursor} {attempt : Attempt ε κ}
      (target : slot.target.single? = none) (one : slot.quantifier = .one)
      (unit : TriesUnit context slot start attempt) :
      TriesItem context (.placeholder slot) start attempt
  | repetition {context : Context} {slot : Placeholder} {start : Cursor} {attempt : Attempt ε κ}
      (target : slot.target.single? = none) (several : slot.quantifier ≠ .one)
      (units : TriesUnits context slot 0 start attempt) :
      TriesItem context (.placeholder slot) start attempt

/-- Attempts at items one after the other, each behind all readings of those in front of it. -/
inductive TriesItems : Context → List Item → Cursor → Attempt ε κ → Prop where
  | here {context : Context} {item : Item} {rest : List Item} {start : Cursor}
      {attempt : Attempt ε κ} (first : TriesItem context item start attempt) :
      TriesItems context (item :: rest) start attempt
  | later {context : Context} {item : Item} {rest : List Item} {start : Cursor}
      {found : Reading ε κ} {attempt : Attempt ε κ}
      (read : found ∈ Enumerate.item config (within context ask) item start)
      (others : TriesItems context rest found.stop attempt) :
      TriesItems context (item :: rest) start attempt

/-- Attempts at the alternatives of a type. -/
inductive TriesType : String → Cursor → Attempt ε κ → Prop where
  | alternative {name : String} {start : Cursor} {chosen : Alternative ε κ} {attempt : Attempt ε κ}
      (member : chosen ∈ rules name)
      (items : TriesItems (some (name, start)) chosen.pattern.items start attempt) :
      TriesType name start attempt

end

variable {rules config ask}

/-- The attempts behind a count of units are those at the next one and those behind it. -/
theorem triesUnits_iff {context : Context} {slot : Placeholder} {count : Nat} {start : Cursor}
    {attempt : Attempt ε κ} :
    TriesUnits rules config ask context slot count start attempt ↔
      slot.quantifier.allowsMore count = true ∧
        ((count ≠ 0 ∧ ∃ text, config.repetition.separator? = some text ∧
            attempt = literalAttempt text start) ∨
          ∃ opening ∈ Enumerate.openings (ε := ε) (κ := κ) config count start,
            TriesUnit rules config ask context slot opening.stop attempt ∨
              ∃ found ∈ Enumerate.unit (within context ask) slot opening.stop,
                found.stop.rest.length < start.rest.length ∧
                  TriesUnits rules config ask context slot (count + 1) found.stop attempt) := by
  constructor
  · intro tries
    cases tries with
    | separator _ more further separator => exact ⟨more, .inl ⟨further, _, separator, rfl⟩⟩
    | here more opened first => exact ⟨more, .inr ⟨_, opened, .inl first⟩⟩
    | later more opened read moved others =>
      exact ⟨more, .inr ⟨_, opened, .inr ⟨_, read, moved, others⟩⟩⟩
  · rintro ⟨more, ⟨further, text, separator, rfl⟩ | ⟨opening, opened, first | behind⟩⟩
    · exact .separator start more further separator
    · exact .here more opened first
    · obtain ⟨found, read, moved, others⟩ := behind
      exact .later more opened read moved others

end Matching
end SentenceGrammar
