import SentenceGrammar.Proofs.MemoizedEvaluation
import SentenceGrammar.Proofs.PreprocessGrammar
import SentenceGrammar.Proofs.ReadParts
import SentenceGrammar.Proofs.ScriptSoundness

/-!
# What sentences of the preprocessing language ask for

A sentence shows the operation that it asks for: the numbers and units in it can be read off its
tree. Evaluating the sentences of a script records these operations one after the other, up to the
first sentence with a number that has no value.
-/
namespace SentenceGrammar.Preprocess

open Matching (Shows)

variable {ε κ τ : Type}

/-! ### Reading operations off trees -/

/-- The part of a node that a name leads to. -/
def part (node : Node (Rule ε) κ) (name : String) : Except EvalError (Node (Rule ε) κ) :=
  match node.find? name with
  | some (_, below) => .ok below
  | none => .error (.unknownVariable name node.text node.span)

def floatOf (node : Node (Rule ε) κ) : Except EvalError Float :=
  match Decimal.readFloat? node.text.toList with
  | some x => .ok x
  | none => .error (.invalidNumber node.text .float node.span)

def intOf (node : Node (Rule ε) κ) : Except EvalError Int :=
  match Decimal.readInt64? node.text.toList with
  | some n => .ok n
  | none => .error (.invalidNumber node.text .int node.span)

def textOf (node : Node (Rule ε) κ) : Except EvalError String := .ok node.text

/-- Whether a unit is a physical one. -/
def isPhysical (node : Node (Rule ε) κ) : Bool := node.evaluator?.any fun rule =>
  match rule with
  | .unit physical => physical
  | _ => false

/-- A size in pixels. -/
def sizeOf (calibration : Calibration) (node : Node (Rule ε) κ) : Except EvalError Float := do
  let number ← floatOf (← part node "stddev")
  return calibration.toPixels number (isPhysical (← part node "units"))

/-- The operation that a sentence asks for. -/
def operation (calibration : Calibration) (sentence : Node (Rule ε) κ) :
    Except EvalError Operation :=
  match sentence.evaluator? with
  | some .gaussianBlur => do
    let deviation ← sizeOf calibration (← part sentence "stddev")
    return .gaussianBlur deviation
  | some (.medianFilter size) => do
    let radius ← sizeOf calibration (← part sentence size)
    return .medianFilter (Decimal.nearestInt64 radius)
  | some .normalizeIntensities => return .normalizeIntensities
  | some .subtractBackground => do
    let radius ← sizeOf calibration (← part sentence "window-size")
    return .subtractBackground (Decimal.nearestInt64 radius)
  | some .unsharpMask => do
    let radius ← sizeOf calibration (← part sentence "radius")
    let weight ← floatOf (← part sentence "weight")
    return .unsharpMask radius weight
  | some .localContrast => do
    let blockSize ← intOf (← part sentence "block-size")
    let bins ← intOf (← part sentence "bins")
    let slope ← intOf (← part sentence "slope")
    let mask ← textOf (← part sentence "image")
    return .localContrast blockSize bins slope mask
  | some (.unit _) | some .filterSize | some (.own _) | none => .error (.failed "no sentence")

theorem part_eq {node child : Node (Rule ε) κ} {name : String} {path : Node.Path}
    (found : node.find? name = some (path, child)) : part node name = .ok child := by
  rw [part, found]

theorem part_bind {α : Type} {node child : Node (Rule ε) κ} {name : String} {path : Node.Path}
    (found : node.find? name = some (path, child)) (next : Node (Rule ε) κ → Except EvalError α) :
    (part node name >>= next) = next child := by
  rw [part_eq found]
  rfl

section

variable {node : Node (Rule ε) κ}

theorem floatOf_of_read {x : Float} (read : Decimal.readFloat? node.text.toList = some x) :
    floatOf node = .ok x := by
  delta floatOf
  rw [read]

theorem floatOf_of_unread (unread : Decimal.readFloat? node.text.toList = none) :
    floatOf node = .error (.invalidNumber node.text .float node.span) := by
  delta floatOf
  rw [unread]

theorem intOf_of_read {n : Int} (read : Decimal.readInt64? node.text.toList = some n) :
    intOf node = .ok n := by
  delta intOf
  rw [read]

theorem intOf_of_unread (unread : Decimal.readInt64? node.text.toList = none) :
    intOf node = .error (.invalidNumber node.text .int node.span) := by
  delta intOf
  rw [unread]

end

theorem sizeOf_eq {node number unit : Node (Rule ε) κ} {first second : Node.Path}
    (foundNumber : node.find? "stddev" = some (first, number))
    (foundUnit : node.find? "units" = some (second, unit)) (calibration : Calibration) :
    sizeOf calibration node =
      (floatOf number).map fun x => calibration.toPixels x (isPhysical unit) := by
  rw [sizeOf, part_bind foundNumber]
  cases floatOf number with
  | error error => rfl
  | ok x => exact part_bind foundUnit _

/-! ### Programs -/

/-- The evaluators of types see only the calibration. -/
def sight (world : World τ) : Calibration := world.image.calibration

theorem typed_steady {α : Type} {path : Node.Path} {node : Node (Rule ε) κ} {name : String}
    {convert : Value → Except TypeMismatch α} {next : α → Program (World τ)}
    (steady : ∀ x, (next x).Steady sight) :
    (Program.typed path node name convert next).Steady sight := by
  unfold Program.typed Program.lookup
  split
  · intro outcome
    cases outcome with
    | error error => trivial
    | ok value =>
      simp only [Program.andThen]
      split
      · exact steady _
      · trivial
  · trivial

theorem size_steady (host : Host ε κ τ) (node : Node (Rule ε) κ) :
    (program host .filterSize node).Steady sight :=
  typed_steady fun _ => typed_steady fun _ =>
    ⟨fun _ => trivial, fun _ _ same => congrArg (fun calibration : Calibration =>
      Program.value (.float (calibration.toPixels _ _))) same⟩

/-- A value at a wanted type. -/
def converted {α : Type} (name : String) (convert : Value → Except TypeMismatch α)
    (outcome : Outcome) : Except EvalError α :=
  outcome.bind fun value => (convert value).mapError (.typeMismatch name)

/-- A program that needs a value at a type first asks for it. -/
theorem run_typed {α σ : Type} {parts : List (Plan σ)} {node child : Node (Rule ε) κ}
    {name : String} {convert : Value → Except TypeMismatch α} {next : α → Program σ} {index : Nat}
    {evaluation : Evaluation σ Outcome} (found : node.find? name = some ([index], child))
    (answer : Plan.request parts [index] = evaluation) (memo : Memo σ) :
    ((Program.typed [] node name convert next).run parts).run memo =
      match converted name convert (evaluation.run memo).1 with
      | .ok x => ((next x).run parts).run (evaluation.run memo).2
      | .error error => (.error error, (evaluation.run memo).2) := by
  subst answer
  have asked : Program.lookup [] node name = (.request [index] .done : Program σ) := by
    rw [Program.lookup, found]
    rfl
  rw [Program.typed, asked, Program.withValue, Program.andThen, Program.run_request]
  generalize (Plan.request parts [index]).run memo = answered
  obtain ⟨outcome, after⟩ := answered
  cases outcome with
  | error error => rfl
  | ok value =>
    simp only [Program.andThen, converted, Except.bind]
    cases convert value <;> rfl

/-! ### Values of the parts of a sentence -/

section

variable {host : Host ε κ τ} {node : Node (Rule ε) κ}

theorem plain_builtin {type : Builtin} (kind : node.kind = .builtin type)
    (memo : Memo (World τ)) : (node.afresh (program host)).value.run memo =
      (Node.builtinValue type node.text node.span, memo) := by
  rw [Node.afresh_eq, Plan.value, Node.task, kind]
  rfl

theorem plain_run (kind : node.kind = .run) (memo : Memo (World τ)) :
    (node.afresh (program host)).value.run memo = (.ok (.str node.text), memo) := by
  rw [Node.afresh_eq, Plan.value, Node.task, kind]
  rfl

/-- The plain value of a part is asked for by its position. -/
theorem plain_request {index : Nat} {child : Node (Rule ε) κ}
    (found : node.children[index]? = some child) :
    Plan.request (node.children.map (Node.afresh (program host))) [index] =
      (child.afresh (program host)).value := by
  rw [Node.request_afresh, Node.at?, found]
  rfl

theorem plain_unit {physical : Bool} (rule : node.evaluator? = some (.unit physical))
    (memo : Memo (World τ)) :
    (node.afresh (program host)).value.run memo = (.ok (.bool physical), memo) := by
  rw [Node.afresh_eq, Plan.value, Node.task_of_evaluator _ rule]
  rfl

theorem children_of_find? {name : String} {index : Nat} {child : Node (Rule ε) κ}
    (found : node.find? name = some ([index], child)) : node.children[index]? = some child := by
  have there := (Node.find?_at? found).1
  rw [Node.at?] at there
  obtain ⟨_, atIndex, ⟨⟩⟩ := Option.bind_eq_some_iff.mp there
  exact atIndex

theorem converted_builtinValue (name : String) (node : Node (Rule ε) κ) :
    converted name Value.toFloat (Node.builtinValue .float node.text node.span) = floatOf node := by
  rw [Node.builtinValue]
  cases read : Decimal.readFloat? node.text.toList with
  | none => exact (floatOf_of_unread read).symm
  | some x => exact (floatOf_of_read read).symm

theorem plain_size {number unit : Node (Rule ε) κ} {first second : Nat} {physical : Bool}
    (rule : node.evaluator? = some .filterSize)
    (foundNumber : node.find? "stddev" = some ([first], number))
    (float : number.kind = .builtin .float)
    (foundUnit : node.find? "units" = some ([second], unit))
    (ruleUnit : unit.evaluator? = some (.unit physical)) (memo : Memo (World τ)) :
    (node.afresh (program host)).value.run memo =
      ((sizeOf memo.surroundings.image.calibration node).map .float, memo) := by
  rw [Node.afresh_eq, Plan.value, Node.task_of_evaluator _ rule, program,
    run_typed foundNumber (plain_request (children_of_find? foundNumber)), plain_builtin float]
  rw [sizeOf_eq foundNumber foundUnit, converted_builtinValue]
  cases floatOf number with
  | error error => rfl
  | ok x =>
    simp only
    rw [run_typed foundUnit (plain_request (children_of_find? foundUnit)), plain_unit ruleUnit]
    simp only [isPhysical, ruleUnit, Option.any_some]
    rfl

end


/-! ### Recording operations -/

/-- A sentence that has a meaning records its operation, and another one nothing. -/
def recorded (result : Except EvalError Operation) (world : World τ) : World τ :=
  match result with
  | .ok operation => { world with image := world.image.record operation }
  | .error _ => world

theorem sight_recorded (result : Except EvalError Operation) (world : World τ) :
    sight (recorded result world) = sight world := by
  cases result <;> rfl

section

variable [DecidableEq ε] [DecidableEq κ] (host : Host ε κ τ) (root : Node (Rule ε) κ)
  (spot : Node.Spot (Rule ε) κ) (calibration : Calibration)

/-- Run on the node, the program records the operation or fails. -/
structure Records (steps : Program (World τ)) (result : Except EvalError Operation) : Prop where
  unsteady : ¬steps.Steady sight
  runs : ∀ memo, Node.Sound sight (program host) root memo →
    sight memo.surroundings = calibration →
      ∃ between, Node.Calm sight (program host) root memo between ∧
        (steps.run (spot.parts root.sharedParts (program host))).run memo =
          (result.map fun _ => .void,
            { between with surroundings := recorded result between.surroundings })

variable {host root spot calibration}

theorem records_record (op : Operation) :
    Records host root spot calibration (record op) (.ok op) where
  unsteady := id
  runs memo sound _ := ⟨memo, .refl sound, rfl⟩

/-- What a part of a node answers is its plain value. -/
theorem request_part (placed : spot.PlacedIn root) {index : Nat} {child : Node (Rule ε) κ}
    (found : spot.node.children[index]? = some child)
    (steady : child.Steady sight (program host)) {memo : Memo (World τ)}
    (sound : Node.Sound sight (program host) root memo) : ∃ after,
    (Plan.request (spot.parts root.sharedParts (program host)) [index]).run memo =
      (((child.afresh (program host)).value.run memo).1, after) ∧
    Node.Calm sight (program host) root memo after := by
  have node := Node.Spot.at?_node root.sharedParts [index] spot
  obtain ⟨_, _, lower, same, foundLower, answer⟩ | ⟨none, -⟩ :=
    spot.request_cases root.sharedParts [index]
  · rw [foundLower, Node.at?, found] at node
    obtain rfl : lower.node = child := Option.some.inj node
    obtain ⟨same, -, calm⟩ :=
      Node.tracks_value (placed.below foundLower) steady memo memo sound rfl
    rw [answer, same]
    exact ⟨_, rfl, calm⟩
  · rw [none.resolve_left (List.cons_ne_nil _ _), Node.at?, found] at node
    cases node

/-- A program that first needs a part records what follows from the meaning of the part. -/
theorem records_typed {α : Type} {name : String} {index : Nat} {child : Node (Rule ε) κ}
    {convert : Value → Except TypeMismatch α} {next : α → Program (World τ)}
    {meaning : Except EvalError α} {operation : α → Except EvalError Operation}
    (placed : spot.PlacedIn root) (found : spot.node.find? name = some ([index], child))
    (steady : child.Steady sight (program host))
    (plain : ∀ memo : Memo (World τ), sight memo.surroundings = calibration →
      converted name convert ((child.afresh (program host)).value.run memo).1 = meaning)
    (possible : ∃ value x, convert value = .ok x)
    (others : ∀ x, Records host root spot calibration (next x) (operation x)) :
    Records host root spot calibration (Program.typed [] spot.node name convert next)
      (meaning >>= operation) where
  unsteady steadily := by
    obtain ⟨value, x, accepted⟩ := possible
    rw [Program.typed, Program.lookup, found] at steadily
    have further := steadily (.ok value)
    simp only [Program.andThen, accepted] at further
    exact (others x).unsteady further
  runs memo sound sees := by
    obtain ⟨middle, answer, calm⟩ := request_part placed (children_of_find? found) steady sound
    rw [run_typed found rfl, answer, plain memo sees]
    cases meaning with
    | error error => exact ⟨middle, calm, rfl⟩
    | ok x =>
      obtain ⟨between, calmer, run⟩ := (others x).runs middle calm.sound
        ((congrArg sight calm.surroundings).trans sees)
      exact ⟨between, calm.trans calmer, run⟩

end

/-! ### Sentences -/

section

variable {registry : Registry (Rule ε) κ} {config : Config} {calibration : Calibration}

theorem Tuned.unit_rule (tuned : Tuned calibration registry) {chosen : Alternative (Rule ε) κ}
    (member : chosen ∈ registry.alternatives "units") :
    ∃ physical, chosen.evaluator = some (.unit physical) := by
  obtain ⟨definition, listed, pattern, -, rfl⟩ := Matching.exists_of_forall₂ tuned.units member
  unfold unitDefinitions at listed
  split at listed
  · simp only [List.mem_cons, List.not_mem_nil, or_false] at listed
    rcases listed with rfl | rfl <;> exact ⟨_, rfl⟩
  · rw [List.mem_singleton.mp listed]
    exact ⟨_, rfl⟩

theorem Tuned.size_shaped (tuned : Tuned calibration registry) {chosen : Alternative (Rule ε) κ}
    (member : chosen ∈ registry.alternatives "filter-size") :
    Shaped sizeParts .filterSize chosen := by
  obtain ⟨size, alone, shaped⟩ := tuned.sizes
  rw [alone] at member
  rwa [List.mem_singleton.mp member]

theorem Tuned.steadyRules (tuned : Tuned calibration registry) (host : Host ε κ τ) :
    Matching.SteadyRules registry.alternatives (program host) sight := by
  intro name chosen member evaluator given node
  by_cases units : name = "units"
  · subst units
    obtain ⟨physical, rule⟩ := tuned.unit_rule member
    cases rule.symm.trans given
    trivial
  by_cases size : name = "filter-size"
  · subst size
    cases (tuned.size_shaped member).evaluator.symm.trans given
    exact size_steady host node
  · rw [tuned.others name units size] at member
    cases member

/-- A size is a number and a unit. -/
structure SizeParts (size number unit : Node (Rule ε) κ) : Prop where
  rule : size.evaluator? = some .filterSize
  foundNumber : ∃ index, size.find? "stddev" = some ([index], number)
  float : number.kind = .builtin .float
  numeral : number.covered.toList ∈ Numeral.float
  foundUnit : ∃ index, size.find? "units" = some ([index], unit)
  ruleUnit : ∃ physical, unit.evaluator? = some (.unit physical)

theorem size_parts (tuned : Tuned calibration registry) {name : String} {size : Node (Rule ε) κ}
    (shows : Shows registry.alternatives config (.slot name (.named "filter-size") .one) size) :
    ∃ number unit, SizeParts size number unit := by
  obtain ⟨chosen, member, kind, children, -⟩ := shows.type
  have shaped := tuned.size_shaped member
  rw [shaped.parts] at children
  obtain ⟨first, number, foundNumber, isNumber⟩ := Matching.find?_of_shows "stddev"
    children rfl
  obtain ⟨second, unit, foundUnit, isUnit⟩ := Matching.find?_of_shows "units"
    children rfl
  obtain ⟨float, numeral⟩ := isNumber.number rfl
  obtain ⟨way, isWay, unitKind, -⟩ := isUnit.type
  obtain ⟨physical, rule⟩ := tuned.unit_rule isWay
  refine ⟨number, unit, ?_, ⟨first, foundNumber⟩, float, numeral, ⟨second, foundUnit⟩,
    ⟨physical, ?_⟩⟩
  · rw [Node.evaluator?, Node.alternative?, kind]
    exact shaped.evaluator
  · rw [Node.evaluator?, Node.alternative?, unitKind]
    exact rule

end

/-! ### What a sentence records -/

section

variable [DecidableEq ε] [DecidableEq κ] {registry : Registry (Rule ε) κ} {config : Config}
  {calibration : Calibration} {host : Host ε κ τ} {root : Node (Rule ε) κ}
  {spot : Node.Spot (Rule ε) κ} {parts : List Part} {name : String}

/-- A program that first needs a certain part of its node records what follows from the meaning of
that part. -/
theorem records_part {α : Type} {wanted : Part} {convert : Value → Except TypeMismatch α}
    {meaning : Node (Rule ε) κ → Except EvalError α} {next : α → Program (World τ)}
    {operation : α → Except EvalError Operation} (tuned : Tuned calibration registry)
    (placed : spot.PlacedIn root)
    (shows : List.Forall₂ (Shows registry.alternatives config) parts spot.node.children)
    (plain : ∀ child, Shows registry.alternatives config wanted child →
      ∀ memo : Memo (World τ), sight memo.surroundings = calibration →
        converted name convert ((child.afresh (program host)).value.run memo).1 = meaning child)
    (possible : ∃ value x, convert value = .ok x)
    (named : parts.find? (fun part => part.name? = some name) = some wanted)
    (others : ∀ x, Records host root spot calibration (next x) (operation x)) :
    Records host root spot calibration (Program.typed [] spot.node name convert next)
      (part spot.node name >>= fun child => meaning child >>= operation) := by
  obtain ⟨index, child, found, shown⟩ := Matching.find?_of_shows name shows named
  rw [part_bind found]
  exact records_typed placed found (shown.steady (tuned.steadyRules host)) (plain child shown)
    possible others

theorem records_size {next : Float → Program (World τ)}
    {operation : Float → Except EvalError Operation} (tuned : Tuned calibration registry)
    (placed : spot.PlacedIn root)
    (shows : List.Forall₂ (Shows registry.alternatives config) parts spot.node.children)
    (named : parts.find? (fun part => part.name? = some name) =
      some (.slot name (.named "filter-size") .one))
    (others : ∀ x, Records host root spot calibration (next x) (operation x)) :
    Records host root spot calibration (Program.typed [] spot.node name Value.toFloat next)
      (part spot.node name >>= fun child => sizeOf calibration child >>= operation) := by
  refine records_part tuned placed shows (fun child shown memo sees => ?_) ⟨.float 0, 0, rfl⟩ named
    others
  obtain ⟨number, unit, size⟩ := size_parts tuned shown
  obtain ⟨first, foundNumber⟩ := size.foundNumber
  obtain ⟨second, foundUnit⟩ := size.foundUnit
  obtain ⟨physical, ruleUnit⟩ := size.ruleUnit
  rw [plain_size size.rule foundNumber size.float foundUnit ruleUnit, show
    memo.surroundings.image.calibration = calibration from sees]
  cases sizeOf calibration child <;> rfl

theorem records_float {next : Float → Program (World τ)}
    {operation : Float → Except EvalError Operation} (tuned : Tuned calibration registry)
    (placed : spot.PlacedIn root)
    (shows : List.Forall₂ (Shows registry.alternatives config) parts spot.node.children)
    (named : parts.find? (fun part => part.name? = some name) =
      some (.slot name (.builtin .float) .one))
    (others : ∀ x, Records host root spot calibration (next x) (operation x)) :
    Records host root spot calibration (Program.typed [] spot.node name Value.toFloat next)
      (part spot.node name >>= fun child => floatOf child >>= operation) := by
  refine records_part tuned placed shows (fun child shown memo sees => ?_) ⟨.float 0, 0, rfl⟩ named
    others
  rw [plain_builtin (shown.number rfl).1, converted_builtinValue]

theorem records_int {next : Int → Program (World τ)}
    {operation : Int → Except EvalError Operation} (tuned : Tuned calibration registry)
    (placed : spot.PlacedIn root)
    (shows : List.Forall₂ (Shows registry.alternatives config) parts spot.node.children)
    (named : parts.find? (fun part => part.name? = some name) =
      some (.slot name (.builtin .int) .one))
    (others : ∀ x, Records host root spot calibration (next x) (operation x)) :
    Records host root spot calibration (Program.typed [] spot.node name Value.toInt next)
      (part spot.node name >>= fun child => intOf child >>= operation) := by
  refine records_part tuned placed shows (fun child shown memo sees => ?_) ⟨.int 0, 0, rfl⟩ named
    others
  rw [plain_builtin (shown.number rfl).1, Node.builtinValue]
  cases read : Decimal.readInt64? child.text.toList with
  | none => exact (intOf_of_unread read).symm
  | some n => exact (intOf_of_read read).symm

theorem records_text {next : String → Program (World τ)}
    {operation : String → Except EvalError Operation} {set : CharClass} {quantifier : Quantifier}
    (tuned : Tuned calibration registry) (placed : spot.PlacedIn root)
    (shows : List.Forall₂ (Shows registry.alternatives config) parts spot.node.children)
    (named : parts.find? (fun part => part.name? = some name) =
      some (.slot name (.charClass set) quantifier))
    (others : ∀ x, Records host root spot calibration (next x) (operation x)) :
    Records host root spot calibration (Program.typed [] spot.node name Value.toStr next)
      (part spot.node name >>= fun child => textOf child >>= operation) := by
  refine records_part tuned placed shows (fun child shown memo sees => ?_) ⟨.str "", "", rfl⟩ named
    others
  rw [plain_run shown.run]
  rfl

omit [DecidableEq ε] [DecidableEq κ] in
/-- Each sentence was read by one of the sentences of the language. -/
theorem exists_reading (tuned : Tuned calibration registry) {node : Node (Rule ε) κ}
    (shown : Matching.ShowsSentence registry config node) :
    ∃ reading ∈ sentenceParts, node.evaluator? = some reading.2 ∧
      List.Forall₂ (Shows registry.alternatives config) reading.1 node.children := by
  obtain ⟨chosen, member, kind, shows⟩ := shown
  obtain ⟨reading, listed, shaped⟩ := Matching.exists_of_forall₂ tuned.sentences member
  rw [shaped.parts] at shows
  refine ⟨reading, listed, ?_, shows⟩
  rw [Node.evaluator?, Node.alternative?, kind]
  exact shaped.evaluator

/-- A sentence records the operation that it asks for. -/
theorem sentence_records (tuned : Tuned calibration registry) (placed : spot.PlacedIn root)
    (shown : Matching.ShowsSentence registry config spot.node) :
    Records host root spot calibration (Node.task (program host) spot.node)
      (operation calibration spot.node) := by
  obtain ⟨reading, member, given, shows⟩ := exists_reading tuned shown
  rw [Node.task_of_evaluator _ given, operation, given]
  simp only [sentenceParts, List.mem_cons, List.not_mem_nil, or_false] at member
  rcases member with rfl | rfl | rfl | rfl | rfl | rfl | rfl
  · exact records_size tuned placed shows rfl fun _ => records_record _
  · exact records_size tuned placed shows rfl fun _ => records_record _
  · exact records_record _
  · exact records_size tuned placed shows rfl fun _ => records_record _
  · exact records_size tuned placed shows rfl fun _ => records_record _
  · exact records_size tuned placed shows rfl fun radius =>
      records_float tuned placed shows rfl fun _ => records_record _
  · exact records_int tuned placed shows rfl fun blockSize =>
      records_int tuned placed shows rfl fun bins =>
      records_int tuned placed shows rfl fun slope =>
      records_text tuned placed shows rfl fun _ => records_record _

end

/-! ### What a script records -/

theorem positions_children (condition : Node (Rule ε) κ → Bool) (node : Node (Rule ε) κ) :
    List.Forall₂ (fun index child => node.children[index]? = some child)
      (node.positions condition) (node.children.filter condition) := by
  have children : (node.children.mapIdx fun index child => (index, child)).map Prod.snd =
      node.children := List.ext_getElem (by simp) (by simp)
  rw [Node.positions, ← children, List.filter_map, children, List.forall₂_map_left_iff,
    List.forall₂_map_right_iff]
  refine List.forall₂_same.mpr fun pair listed => ?_
  obtain ⟨index, bound, rfl⟩ := List.mem_mapIdx.mp (List.mem_filter.mp listed).1
  exact List.getElem?_eq_getElem bound

section

variable [DecidableEq ε] [DecidableEq κ] {registry : Registry (Rule ε) κ} {config : Config}
  {calibration : Calibration} {host : Host ε κ τ} {root : Node (Rule ε) κ}

theorem request_of_spotAt? {index : Nat} {spot : Node.Spot (Rule ε) κ}
    (found : root.spotAt? [index] = some spot) :
    Plan.request (root.rootSpot.parts root.sharedParts (program host)) [index] =
      spot.value root.sharedParts (program host) := by
  obtain ⟨_, _, lower, -, foundLower, answer⟩ | ⟨none, -⟩ :=
    root.rootSpot.request_cases root.sharedParts [index]
  · cases found.symm.trans foundLower
    exact answer _
  · cases found.symm.trans (none.resolve_left nofun)

theorem Records.unsteady_node {spot : Node.Spot (Rule ε) κ}
    {result : Except EvalError Operation}
    (records : Records host root spot calibration (Node.task (program host) spot.node) result) :
    ¬spot.node.Steady sight (program host) :=
  fun steady => records.unsteady (steady [] _ rfl)

/-- A sentence that was not evaluated before is evaluated to what it records. -/
theorem sentence_value {spot : Node.Spot (Rule ε) κ} {result : Except EvalError Operation}
    (placed : spot.PlacedIn root)
    (records : Records host root spot calibration (Node.task (program host) spot.node) result)
    {memo : Memo (World τ)} (sound : Node.Sound sight (program host) root memo)
    (sees : sight memo.surroundings = calibration) (new : memo.kept? spot.cell = none) :
    ∃ after, (spot.value root.sharedParts (program host)).run memo =
        (result.map fun _ => .void, after) ∧
      Node.Sound sight (program host) root after ∧
      after.surroundings = recorded result memo.surroundings ∧
      ∀ other : Node.Spot (Rule ε) κ, other.PlacedIn root →
        ¬other.node.Steady sight (program host) → other.cell ≠ spot.cell →
          after.kept? other.cell = memo.kept? other.cell := by
  obtain ⟨between, calm, run⟩ := records.runs memo sound sees
  have sound : Node.Sound sight (program host) root
      { between with surroundings := recorded result between.surroundings } :=
    calm.sound.of_view rfl (sight_recorded result _)
  rw [Node.Spot.value_new new, Node.Spot.compute, run]
  refine ⟨_, rfl, sound.keep_unsteady placed records.unsteady_node,
    congrArg (recorded result) calm.surroundings, ?_⟩
  · intro other otherPlaced otherUnsteady elsewhere
    rw [Memo.kept?_keep_of_ne elsewhere, ← calm.others other otherPlaced otherUnsteady]
    rfl

/-- The operations that a script asks for, if all its sentences ask for one. -/
def operations (calibration : Calibration) (script : Node (Rule ε) κ) :
    Except EvalError (List Operation) :=
  script.sentences.mapM (operation calibration)

variable (host) in
/-- Sentences are asked for one after the other, and record their operations up to the first one
that fails. -/
theorem askAll_records (script : root.kind = .script) {positions : List Nat}
    {sentences : List (Node (Rule ε) κ)}
    (asked : List.Forall₂ (fun index sentence => root.children[index]? = some sentence) positions
      sentences) (distinct : positions.Nodup)
    (records : ∀ spot : Node.Spot (Rule ε) κ, spot.PlacedIn root → spot.node ∈ sentences →
      Records host root spot calibration (Node.task (program host) spot.node)
        (operation calibration spot.node)) :
    ∀ (next : Except EvalError (List Value) → Outcome) (memo : Memo (World τ)),
      Node.Sound sight (program host) root memo → sight memo.surroundings = calibration →
      (∀ index ∈ positions, ∀ spot : Node.Spot (Rule ε) κ, root.spotAt? [index] = some spot →
        ¬spot.node.Steady sight (program host) → memo.kept? spot.cell = none) →
      ∃ after, ((Node.askAll next positions).run
          (root.rootSpot.parts root.sharedParts (program host))).run memo =
          (next ((sentences.mapM (operation calibration)).map fun operations =>
            operations.map fun _ => .void), after) ∧
        sight after.surroundings = calibration ∧
        ∀ operations, sentences.mapM (operation calibration) = .ok operations →
          after.surroundings.image.operations =
            memo.surroundings.image.operations ++ operations := by
  induction asked with
  | nil =>
    intro next memo sound sees new
    refine ⟨memo, rfl, sees, ?_⟩
    rintro operations ⟨⟩
    exact (List.append_nil _).symm
  | @cons index sentence positions sentences atIndex _ ih =>
    intro next memo sound sees new
    obtain ⟨apart, distinct⟩ := List.nodup_cons.mp distinct
    have node := root.spotAt?_node [index]
    rw [Node.at?, atIndex] at node
    obtain ⟨spot, found, isSentence⟩ := Option.map_eq_some_iff.mp node
    obtain rfl : spot.node = sentence := isSentence
    have placed := Node.spotAt?_placed found
    have recording := records spot placed List.mem_cons_self
    obtain ⟨between, value, sound, surroundings, others⟩ := sentence_value placed recording sound
      sees (new index List.mem_cons_self spot found recording.unsteady_node)
    rw [Node.askAll, Program.run_request, request_of_spotAt? found, value, List.mapM_cons]
    have stillSees : sight between.surroundings = calibration := by
      rw [surroundings, sight_recorded, sees]
    cases result : operation calibration spot.node with
    | error error =>
      refine ⟨between, rfl, stillSees, ?_⟩
      rintro operations ⟨⟩
    | ok operation =>
      -- The other sentences have cells of their own, in which nothing was kept.
      have stillNew : ∀ index ∈ positions, ∀ other : Node.Spot (Rule ε) κ,
          root.spotAt? [index] = some other → ¬other.node.Steady sight (program host) →
            between.kept? other.cell = none := by
        intro later member other foundOther unsteady
        rw [others other (Node.spotAt?_placed foundOther) unsteady fun same => ?_]
        · exact new later (List.mem_cons_of_mem _ member) other foundOther unsteady
        · have steps := (Node.script_child script foundOther).symm.trans
            ((congrArg Cell.steps same).trans (Node.script_child script found))
          exact apart ((List.cons.inj steps).1 ▸ member)
      obtain ⟨after, run, seesAfter, recordedAfter⟩ := ih distinct
        (fun spot placed member => records spot placed (List.mem_cons_of_mem _ member))
        (fun values => next (values.map (.void :: ·))) between sound stillSees stillNew
      refine ⟨after, ?_, seesAfter, ?_⟩
      · refine Eq.trans run ?_
        cases sentences.mapM (Preprocess.operation calibration) <;> rfl
      · intro operations all
        cases rest : sentences.mapM (Preprocess.operation calibration) with
        | error error =>
          rw [rest] at all
          cases all
        | ok further =>
          rw [rest] at all
          cases all
          rw [recordedAfter further rest, surroundings, result]
          exact List.append_assoc ..

variable (host) in
/-- To evaluate a script is to record the operations that it asks for. -/
theorem runAt_records (tuned : Tuned calibration registry) (script : root.kind = .script)
    (sentences : ∀ sentence ∈ root.sentences, Matching.ShowsSentence registry config sentence)
    (world : World τ) (sees : world.image.calibration = calibration) :
    ∃ after, (root.runAt (program host) []).run ⟨[], world⟩ =
        ((operations calibration root).map fun operations => operations.map fun _ => .void, after) ∧
      after.surroundings.image.calibration = calibration ∧
      ∀ recorded, operations calibration root = .ok recorded →
        after.surroundings.image.operations = world.image.operations ++ recorded := by
  have units : root.rootSpot.node.units = root.positions fun child => !child.isGap := by
    simp only [Node.units, Node.rootSpot, script]
  obtain ⟨after, run, seesAfter, recorded⟩ := askAll_records host script
    (positions_children _ root) (Node.nodup_positions _)
    (fun spot placed member => sentence_records tuned placed (sentences _ member))
    (Except.map .list) ⟨[], world⟩ (Node.sound_start world) sees fun _ _ _ _ _ => rfl
  refine ⟨after, ?_, seesAfter, recorded⟩
  have compute : (root.rootSpot.compute root.sharedParts (program host)).run ⟨[], world⟩ =
      (((operations calibration root).map fun operations => operations.map fun _ => .void).map .list,
        after) := by
    rw [Node.Spot.compute,
      Node.task_of_script _ (show root.rootSpot.node.kind = .script from script), units]
    exact run
  rw [Node.runAt, Node.runBy_plan (show root.spotAt? [] = some root.rootSpot from rfl) script]
  refine (Parser.run_return _ Node.Answer.ofScript _).trans ?_
  rw [compute]
  cases operations calibration root <;> rfl

end

end SentenceGrammar.Preprocess
