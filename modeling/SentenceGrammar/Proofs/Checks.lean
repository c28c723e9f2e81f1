import SentenceGrammar.Proofs.ByteScans
import SentenceGrammar.Proofs.Guards
import SentenceGrammar.Proofs.UnfinishedTrees

/-!
# Checked searches

A search cuts its text at places, cuts literals behind what was read of them, gives every node a
span, and counts characters and units. A checked search is the same search, but it raises an alarm
where any of this goes wrong: where an offset is past the end of the text or inside a character,
where a literal has no such rest, where a span is reversed or does not cut the text of its node out
of the text, and where a counter does not fit into 32 bits. Units are counted one by one, however
high their number gets, and numbers are read byte by byte as well. As for guarded searches, the
alarm may do anything, so a checked search that ends in the same state as the search itself has
raised none.
-/
namespace SentenceGrammar

/-- What is left of a text behind an offset, unless that is past the end or inside a character. -/
def Text.from? (offset : Nat) (text : List Char) : Option (List Char) :=
  (Text.splitAt? offset text).map Prod.snd

/-- The span of the node goes forwards and cuts its text out of a text. -/
def Node.Displays {ε κ : Type} (text : List Char) (node : Node ε κ) : Prop :=
  node.span.start ≤ node.span.stop ∧ node.span.slice? text = some node.text.toList

instance {ε κ : Type} (text : List Char) (node : Node ε κ) : Decidable (node.Displays text) :=
  inferInstanceAs (Decidable (_ ∧ _))

namespace Matching

variable {ε κ : Type}

namespace Checked

/-- The number of characters of a run, counted from `done` on. -/
def runCount (quantifier : Quantifier) (accepts : Char → Bool) (done : Nat) : List Char → Nat
  | [] => done
  | c :: more =>
    if quantifier.allowsMore done && accepts c then runCount quantifier accepts (done + 1) more
    else done

/-- Numbers of units that behave the same from here on are remembered as one. -/
def sharedCount (quantifier : Quantifier) (count : Nat) : Nat :=
  match quantifier.most with
  | some _ => count
  | none => min count (max quantifier.least 1)

variable (alarm : Search ε κ Unit) (text : List Char)

/-- It is an alarm if a condition does not hold. -/
def require (condition : Prop) [Decidable condition] : Search ε κ Unit :=
  if condition then pure () else alarm

/-- Cut the text at a place. -/
def visit (place : Cursor) : Search ε κ Unit :=
  require alarm (Text.from? place.offset text = some place.rest)

/-- What is left of a literal behind some of its bytes. -/
def remainder (literal : String) (read : Nat) : Search ε κ String :=
  match Text.from? read literal.toList with
  | some missing => return String.ofList missing
  | none => do
    alarm
    return ""

def expect (scope : Scope ε κ) (place : Cursor) (expected : Expected) : Search ε κ Unit := do
  visit alarm text place
  Matching.expect scope place expected

/-- Check the nodes that were read, and where they stop. -/
def inspect (readings : Readings ε κ) : Search ε κ (Readings ε κ) := do
  readings.whole.forM fun found => do
    visit alarm text found.stop
    require alarm (found.node.Displays text)
  readings.cut.forM fun node => require alarm (node.Displays text)
  return readings

def readLiteral (scope : Scope ε κ) (literal : String) (start : Cursor) :
    Search ε κ (Readings ε κ) := do
  visit alarm text start
  match scanLiteral literal.toList start with
  | .whole stop =>
    inspect alarm text ⟨[⟨stop, .covering start stop none (.literal literal) []⟩], []⟩
  | .ended _ => do
    let missing ← remainder alarm literal (Text.byteSize text - start.offset)
    expect alarm text scope start.finish (.literal missing)
    inspect alarm text ⟨[], scope.keep (.cutOff start none (.literal literal) [])⟩
  | .differs place _ => do
    let missing ← remainder alarm literal (place.offset - start.offset)
    expect alarm text scope place (.literal missing)
    return {}

def readRun (scope : Scope ε κ) (slot : Placeholder) (accepts : Char → Bool) (expected : Expected)
    (kind : NodeKind ε κ) (start : Cursor) : Search ε κ (Readings ε κ) := do
  visit alarm text start
  require alarm (runCount slot.quantifier accepts 0 start.rest ≤ Span.limit)
  let (scan, extendable) := scanRun slot.quantifier accepts [] 0 start.offset start.rest
  if extendable then expect alarm text scope scan.reached expected
  let whole := scan.stops.map fun stop => ⟨stop, .covering start stop (some slot.name) kind []⟩
  let cut :=
    if extendable ∧ scan.reached.rest = [] then
      scope.keep (.cutOff start (some slot.name) kind [])
    else []
  inspect alarm text ⟨whole, cut⟩

def readNumber (scope : Scope ε κ) (slot : Placeholder) (type : Builtin) (start : Cursor) :
    Search ε κ (Readings ε κ) := do
  let scan := scanNumber (type = .float) start
  require alarm (scanBytes (type = .float) start.offset ((Text.bytes text).drop start.offset) =
    scan.offsets)
  if scan.stops = [] ∨ scan.reached.rest = [] then
    expect alarm text scope scan.reached (.builtin type)
  let whole := scan.stops.map fun stop =>
    ⟨stop, .covering start stop (some slot.name) (.builtin type) []⟩
  let cut :=
    if scan.reached.rest = [] then
      scope.keep (.cutOff start (some slot.name) (.builtin type) [])
    else []
  inspect alarm text ⟨whole, cut⟩

def readNamed (scope : Scope ε κ) (named : TypeReader ε κ) (slot : Placeholder) (type : String)
    (start : Cursor) : Search ε κ (Readings ε κ) :=
  if scope.registry.containsType type then do
    let readings ← named scope type start
    inspect alarm text ⟨readings.whole.map fun found =>
        ⟨found.stop,
          .covering start found.stop (some slot.name) (.alternative found.chosen) found.children⟩,
      readings.cut.map fun (chosen, children) =>
        .cutOff start (some slot.name) (.alternative chosen) children⟩
  else do
    expect alarm text scope start (.undefinedType type)
    return {}

def readUnit (scope : Scope ε κ) (named : TypeReader ε κ) (slot : Placeholder) (start : Cursor) :
    Search ε κ (Readings ε κ) :=
  match slot.target with
  | .builtin type => readNumber alarm text scope slot type start
  | .named type => readNamed alarm text scope named slot type start
  | .charClass _ => return {}

def readSeparator (scope : Scope ε κ) (count : Nat) (start : Cursor) :
    Search ε κ (Chains ε κ) :=
  match scope.config.repetition.separator? with
  | some separator =>
    if count = 0 then return ⟨[⟨start, []⟩], []⟩
    else do
      let readings ← readLiteral alarm text scope separator start
      return ⟨readings.whole.map fun found => ⟨found.stop, [found.node]⟩,
        readings.cut.map fun node => [node]⟩
  | none => return ⟨[⟨start, []⟩], []⟩

/-- The counter of the units goes on counting. -/
def readRepeated (scope : Scope ε κ) (unit : Cursor → Search ε κ (Readings ε κ))
    (quantifier : Quantifier) :
    Nat → Nat → Cursor → StateT (Repeated ε κ) (Search ε κ) (Chains ε κ)
  | 0, _, _ => return {}
  | steps + 1, count, start => do
    match (← get).lookup (start.offset, sharedCount quantifier count) with
    | some known => return known
    | none =>
      let further : Chains ε κ ←
        if quantifier.allowsMore count then do
          let opening ← readSeparator alarm text scope count start
          match opening.whole with
          | [] => pure opening
          | first :: _ => do
            let units ← unit first.stop
            let tails ← units.whole.mapM fun found =>
              if found.stop.offset = start.offset then pure {}
              else do
                require alarm (count + 1 ≤ Span.limit)
                let rest ← readRepeated scope unit quantifier steps (count + 1) found.stop
                return rest.after (first.nodes ++ [found.node])
            pure ⟨tails.flatMap Chains.whole,
              opening.cut ++ units.cut.map (fun node => first.nodes ++ [node]) ++
                tails.flatMap Chains.cut⟩
        else pure {}
      let here := if quantifier.least ≤ count then [⟨start, []⟩] else []
      let result : Chains ε κ := ⟨firstPerStop (further.whole ++ here), further.cut⟩
      modify fun known => ((start.offset, sharedCount quantifier count), result) :: known
      return result

def readRepetition (scope : Scope ε κ) (named : TypeReader ε κ) (slot : Placeholder)
    (start : Cursor) : Search ε κ (Readings ε κ) := do
  let (repeated, _) ← (readRepeated alarm text scope (readUnit alarm text scope named slot)
    slot.quantifier (start.rest.length + 1) 0 start).run []
  let kind : NodeKind ε κ := .repetition slot.quantifier
  inspect alarm text ⟨repeated.whole.map fun found =>
      ⟨found.stop, .covering start found.stop (some slot.name) kind found.nodes⟩,
    repeated.cut.map fun children => .cutOff start (some slot.name) kind children⟩

def readPlaceholder (scope : Scope ε κ) (named : TypeReader ε κ) (slot : Placeholder)
    (start : Cursor) : Search ε κ (Readings ε κ) :=
  let single := slot.quantifier = .one
  match slot.target with
  | .charClass set =>
    readRun alarm text scope slot set.contains (.charClass set.source) .run start
  | .builtin type =>
    match type.accepts? with
    | some accepts =>
      readRun alarm text scope slot accepts (.builtin type) (if single then .builtin type else .run)
        start
    | none =>
      if single then readUnit alarm text scope named slot start
      else readRepetition alarm text scope named slot start
  | .named _ =>
    if single then readUnit alarm text scope named slot start
    else readRepetition alarm text scope named slot start

def readItem (scope : Scope ε κ) (named : TypeReader ε κ) (item : Item) (start : Cursor) :
    Search ε κ (Readings ε κ) := do
  visit alarm text start
  match item with
  | .literal literal _ => readLiteral alarm text scope literal start
  | .placeholder slot => readPlaceholder alarm text scope named slot start

def readItems (scope : Scope ε κ) (named : TypeReader ε κ) :
    List Item → List (Chain ε κ) → Search ε κ (Chains ε κ)
  | [], chains => return ⟨chains, []⟩
  | item :: rest, chains => do
    let found ← chains.mapM fun chain => do
      return (chain, ← readItem alarm text scope named item chain.stop)
    let next := firstPerStop <| found.flatMap fun (chain, readings) =>
      readings.whole.map fun reading => ⟨reading.stop, chain.nodes ++ [reading.node]⟩
    let cut := found.flatMap fun (chain, readings) =>
      readings.cut.map fun node => chain.nodes ++ [node]
    let behind ← readItems scope named rest next
    return ⟨behind.whole, cut ++ behind.cut⟩

def readAlternatives (scope : Scope ε κ) (named : TypeReader ε κ)
    (alternatives : List (Alternative ε κ)) (start : Cursor) :
    Search ε κ (TypeReadings ε κ) := do
  let found ← alternatives.mapM fun alternative => do
    return (alternative,
      ← readItems alarm text scope named alternative.pattern.items [⟨start, []⟩])
  let whole := found.flatMap fun (alternative, chains) =>
    chains.whole.map fun chain => (⟨chain.stop, alternative, chain.nodes⟩ : TypeReading ε κ)
  let cut := found.flatMap fun (alternative, chains) =>
    chains.cut.map fun nodes => (alternative, nodes)
  return ⟨keepNew (fun reading => reading.stop.offset) [] whole, cut⟩

def readType : Nat → TypeReader ε κ
  | 0, _, _, _ => return {}
  | levels + 1, scope, name, start => do
    match ← lookUp name start with
    | some known => return known
    | none =>
      if (name, start.offset) ∈ scope.active then return {}
      else
        let inner := { scope with active := scope.active ++ [(name, start.offset)] }
        let readings ← readAlternatives alarm text inner (readType levels)
          (scope.registry.alternatives name) start
        remember name start readings
        return readings

/-- Check the white space at a place. -/
def inspectGap (start : Cursor) : Search ε κ Unit := do
  visit alarm text start
  let (stop, gap) := readGap (ε := ε) (κ := κ) start
  visit alarm text stop
  gap.forM fun node => require alarm (node.Displays text)

def extend (step : Step ε κ) (found : TypeReading ε κ) : Search ε κ (Step ε κ) := do
  inspectGap alarm text found.stop
  let sentence : Node ε κ :=
    .covering step.stop found.stop none (.alternative found.chosen) found.children
  require alarm (sentence.Displays text)
  return step.extend found

def advance (scope : Scope ε κ) (named : TypeReader ε κ) (first : Bool) (step : Step ε κ) :
    Search ε κ (List (Step ε κ) × List (List (Node ε κ))) := do
  let atEnd := step.stop.rest = []
  if step.separated then
    if ¬first ∧ ¬atEnd then expect alarm text scope step.stop .endOfInput
    visit alarm text step.stop
    let readings ← readAlternatives alarm text scope named scope.registry.sentences step.stop
    let steps ← readings.whole.mapM (extend alarm text step)
    let cut ← readings.cut.mapM fun (chosen, children) => do
      let sentence : Node ε κ := .cutOff step.stop none (.alternative chosen) children
      require alarm (sentence.Displays text)
      return step.nodes ++ [sentence]
    return (steps, cut)
  else
    if ¬atEnd then expect alarm text scope step.stop .sentenceBreak
    return ([], [])

def rounds (scope : Scope ε κ) (named : TypeReader ε κ) :
    Nat → Bool → List Nat → List (Step ε κ) → ScriptReadings ε κ → Search ε κ (ScriptReadings ε κ)
  | 0, _, _, _, readings => return readings
  | left + 1, first, seen, frontier, readings => do
    let whole := match readings.whole with
      | some nodes => some nodes
      | none => (frontier.find? fun step => step.stop.rest.isEmpty).map Step.nodes
    if whole.isSome ∧ ¬scope.completing then return { readings with whole }
    else if frontier.isEmpty ∨ ¬(first ∨ scope.config.severalSentences) then
      if whole.isNone then frontier.forM fun step => expect alarm text scope step.stop .endOfInput
      return { readings with whole }
    else
      let found ← frontier.mapM (advance alarm text scope named first)
      let next := keepNew (fun step => step.stop.offset) seen (found.flatMap Prod.fst)
      rounds scope named left false (next.map (fun step => step.stop.offset) ++ seen) next
        ⟨whole, readings.cut ++ found.flatMap Prod.snd⟩

/-- In the end, check the roots of the trees, and the place of the failure if nothing was read. -/
def inspectScript (start : Cursor) (readings : ScriptReadings ε κ) :
    Search ε κ (ScriptReadings ε κ) := do
  readings.whole.toList.forM fun nodes =>
    require alarm ((Node.covering start start.finish none .script nodes).Displays text)
  readings.cut.forM fun nodes =>
    require alarm ((Node.cutOff start none .script nodes).Displays text)
  if readings.whole.isNone then visit alarm text (← get).failure.place
  return readings

/-- The checked search of a script. -/
def readScript (scope : Scope ε κ) (start : Cursor) : Search ε κ (ScriptReadings ε κ) := do
  inspectGap alarm text start
  let (stop, leading) := readGap start
  let readings ← rounds alarm text scope (readType alarm text (levelsFor scope.registry start.rest))
    (Text.byteSize start.rest + 2) true [stop.offset] [⟨stop, leading, true⟩] {}
  inspectScript alarm text start readings

end Checked

end Matching
end SentenceGrammar
