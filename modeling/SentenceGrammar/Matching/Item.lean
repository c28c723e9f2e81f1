import SentenceGrammar.Matching.Scan
import SentenceGrammar.Matching.Search

/-!
# Reading the items of patterns

Literals, runs, numbers, and quantified placeholders. How a registered type is read is left to the
parameter `named`.
-/
namespace SentenceGrammar.Matching

variable {ε κ : Type}

/-- How to read a registered type at a place. -/
abbrev TypeReader (ε κ : Type) := Scope ε κ → String → Cursor → Search ε κ (TypeReadings ε κ)

def readLiteral (scope : Scope ε κ) (text : String) (start : Cursor) :
    Search ε κ (Readings ε κ) :=
  match scanLiteral text.toList start with
  | .whole stop => return ⟨[⟨stop, .covering start stop none (.literal text) []⟩], []⟩
  | .ended missing => do
    expect scope start.finish (.literal (String.ofList missing))
    return ⟨[], scope.keep (.cutOff start none (.literal text) [])⟩
  | .differs place missing => do
    expect scope place (.literal (String.ofList missing))
    return {}

/-- A run of single characters. -/
def readRun (scope : Scope ε κ) (slot : Placeholder) (accepts : Char → Bool) (expected : Expected)
    (kind : NodeKind ε κ) (start : Cursor) : Search ε κ (Readings ε κ) := do
  let (scan, extendable) := scanRun slot.quantifier accepts [] 0 start.offset start.rest
  if extendable then expect scope scan.reached expected
  let whole := scan.stops.map fun stop => ⟨stop, .covering start stop (some slot.name) kind []⟩
  let cut :=
    if extendable ∧ scan.reached.rest = [] then
      scope.keep (.cutOff start (some slot.name) kind [])
    else []
  return ⟨whole, cut⟩

def readNumber (scope : Scope ε κ) (slot : Placeholder) (type : Builtin) (start : Cursor) :
    Search ε κ (Readings ε κ) := do
  let scan := scanNumber (type = .float) start
  if scan.stops = [] ∨ scan.reached.rest = [] then expect scope scan.reached (.builtin type)
  let whole := scan.stops.map fun stop =>
    ⟨stop, .covering start stop (some slot.name) (.builtin type) []⟩
  let cut :=
    if scan.reached.rest = [] then
      scope.keep (.cutOff start (some slot.name) (.builtin type) [])
    else []
  return ⟨whole, cut⟩

/-- A placeholder filled by a registered type. -/
def readNamed (scope : Scope ε κ) (named : TypeReader ε κ) (slot : Placeholder) (type : String)
    (start : Cursor) : Search ε κ (Readings ε κ) :=
  if scope.registry.containsType type then do
    let readings ← named scope type start
    return ⟨readings.whole.map fun found =>
        ⟨found.stop,
          .covering start found.stop (some slot.name) (.alternative found.chosen) found.children⟩,
      readings.cut.map fun (chosen, children) =>
        .cutOff start (some slot.name) (.alternative chosen) children⟩
  else do
    expect scope start (.undefinedType type)
    return {}

/-- One occurrence of a number or of a registered type. -/
def readUnit (scope : Scope ε κ) (named : TypeReader ε κ) (slot : Placeholder) (start : Cursor) :
    Search ε κ (Readings ε κ) :=
  match slot.target with
  | .builtin type => readNumber scope slot type start
  | .named type => readNamed scope named slot type start
  | .charClass _ => return {}

/-- The separator that must stand before the next repetition after `done` of them. -/
def readSeparator (scope : Scope ε κ) (done : Nat) (start : Cursor) :
    Search ε κ (Chains ε κ) :=
  match scope.config.repetition.separator? with
  | some separator =>
    if done = 0 then return ⟨[⟨start, []⟩], []⟩
    else do
      let readings ← readLiteral scope separator start
      return ⟨readings.whole.map fun found => ⟨found.stop, [found.node]⟩,
        readings.cut.map fun node => [node]⟩
  | none => return ⟨[⟨start, []⟩], []⟩

/-- The count after one more repetition. Without a greatest count it stops growing as soon as
nothing depends on it any more. -/
def nextCount (quantifier : Quantifier) (done : Nat) : Nat :=
  match quantifier.most with
  | some _ => done + 1
  | none => min (done + 1) (max quantifier.least 1)

/-- The repetitions read so far within one placeholder, by place and count. -/
abbrev Repeated (ε κ : Type) := List ((Nat × Nat) × Chains ε κ)

/-- Further repetitions at a place after `done` of them, more repetitions preferred to fewer. A
unit that does not get past the place where its repetition began is left out, so as many steps as
there are characters always suffice. -/
def readRepeated (scope : Scope ε κ) (unit : Cursor → Search ε κ (Readings ε κ))
    (quantifier : Quantifier) :
    Nat → Nat → Cursor → StateT (Repeated ε κ) (Search ε κ) (Chains ε κ)
  | 0, _, _ => return {}
  | steps + 1, done, start => do
    match (← get).lookup (start.offset, done) with
    | some known => return known
    | none =>
      let further : Chains ε κ ←
        if quantifier.allowsMore done then do
          let opening ← readSeparator scope done start
          match opening.whole with
          | [] => pure opening
          | first :: _ => do
            let units ← unit first.stop
            let tails ← units.whole.mapM fun found =>
              if found.stop.offset = start.offset then pure {}
              else do
                let rest ← readRepeated scope unit quantifier steps
                  (nextCount quantifier done) found.stop
                return rest.after (first.nodes ++ [found.node])
            pure ⟨tails.flatMap Chains.whole,
              opening.cut ++ units.cut.map (fun node => first.nodes ++ [node]) ++
                tails.flatMap Chains.cut⟩
        else pure {}
      let here := if quantifier.least ≤ done then [⟨start, []⟩] else []
      let result : Chains ε κ := ⟨firstPerStop (further.whole ++ here), further.cut⟩
      modify fun known => ((start.offset, done), result) :: known
      return result

/-- A repeated number or registered type as one node. -/
def readRepetition (scope : Scope ε κ) (named : TypeReader ε κ) (slot : Placeholder)
    (start : Cursor) : Search ε κ (Readings ε κ) := do
  let (repeated, _) ← (readRepeated scope (readUnit scope named slot) slot.quantifier
    (start.rest.length + 1) 0 start).run []
  let kind : NodeKind ε κ := .repetition slot.quantifier
  return ⟨repeated.whole.map fun found =>
      ⟨found.stop, .covering start found.stop (some slot.name) kind found.nodes⟩,
    repeated.cut.map fun children => .cutOff start (some slot.name) kind children⟩

def readPlaceholder (scope : Scope ε κ) (named : TypeReader ε κ) (slot : Placeholder)
    (start : Cursor) : Search ε κ (Readings ε κ) :=
  let single := slot.quantifier = .one
  match slot.target with
  | .charClass set => readRun scope slot set.contains (.charClass set.source) .run start
  | .builtin type =>
    match type.accepts? with
    | some accepts =>
      readRun scope slot accepts (.builtin type) (if single then .builtin type else .run) start
    | none =>
      if single then readUnit scope named slot start
      else readRepetition scope named slot start
  | .named _ =>
    if single then readUnit scope named slot start else readRepetition scope named slot start

def readItem (scope : Scope ε κ) (named : TypeReader ε κ) (item : Item) (start : Cursor) :
    Search ε κ (Readings ε κ) :=
  match item with
  | .literal text _ => readLiteral scope text start
  | .placeholder slot => readPlaceholder scope named slot start

/-- The remaining items of a pattern behind each of the chains read so far. -/
def readItems (scope : Scope ε κ) (named : TypeReader ε κ) :
    List Item → List (Chain ε κ) → Search ε κ (Chains ε κ)
  | [], chains => return ⟨chains, []⟩
  | item :: rest, chains => do
    let found ← chains.mapM fun chain => do
      return (chain, ← readItem scope named item chain.stop)
    let next := firstPerStop <| found.flatMap fun (chain, readings) =>
      readings.whole.map fun reading => ⟨reading.stop, chain.nodes ++ [reading.node]⟩
    let cut := found.flatMap fun (chain, readings) =>
      readings.cut.map fun node => chain.nodes ++ [node]
    let behind ← readItems scope named rest next
    return ⟨behind.whole, cut ++ behind.cut⟩

end SentenceGrammar.Matching
