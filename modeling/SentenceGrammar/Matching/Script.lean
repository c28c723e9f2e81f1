import SentenceGrammar.Matching.Item

/-!
# Reading scripts

A type is read by its alternatives, and a script is a row of sentences with white space in between.
A type that is met again at the place where it is just being read has no reading there, so
left recursion ends.
-/
namespace SentenceGrammar.Matching

variable {ε κ : Type}

/-- Every alternative at a place, with one reading for each place where one stops. -/
def readAlternatives (scope : Scope ε κ) (named : TypeReader ε κ)
    (alternatives : List (Alternative ε κ)) (start : Cursor) :
    Search ε κ (TypeReadings ε κ) := do
  let found ← alternatives.mapM fun alternative => do
    return (alternative, ← readItems scope named alternative.pattern.items [⟨start, []⟩])
  let whole := found.flatMap fun (alternative, chains) =>
    chains.whole.map fun chain => (⟨chain.stop, alternative, chain.nodes⟩ : TypeReading ε κ)
  let cut := found.flatMap fun (alternative, chains) =>
    chains.cut.map fun nodes => (alternative, nodes)
  return ⟨keepNew (fun reading => reading.stop.offset) [] whole, cut⟩

/-- Read a registered type. The types being read are different from each other in name or place,
so `levels` of them suffice if there are no more names and places. -/
def readType : Nat → TypeReader ε κ
  | 0, _, _, _ => return {}
  | levels + 1, scope, name, start => do
    match ← lookUp name start with
    | some known => return known
    | none =>
      if (name, start.offset) ∈ scope.active then return {}
      else
        let inner := { scope with active := scope.active ++ [(name, start.offset)] }
        let readings ← readAlternatives inner (readType levels)
          (scope.registry.alternatives name) start
        remember name start readings
        return readings

/-- The number of pairs of a type and a place in a text, and one more. -/
def levelsFor (registry : Registry ε κ) (text : List Char) : Nat :=
  registry.types.length * (Text.byteSize text + 1) + 1

/-- Sentences read so far. Behind white space, or at the very start, another one may begin. -/
structure Step (ε κ : Type) where
  stop : Cursor
  nodes : List (Node ε κ)
  separated : Bool

/-- What became of a script: its preferred whole reading, and those cut off by the end. -/
structure ScriptReadings (ε κ : Type) where
  whole : Option (List (Node ε κ)) := none
  cut : List (List (Node ε κ)) := []

/-- The longest run of white space at a place, as a gap unless it is empty. -/
def readGap (start : Cursor) : Cursor × List (Node ε κ) :=
  let stop := start.skipWhile Text.isBlank
  (stop, if stop.offset = start.offset then [] else [.covering start stop none .gap []])

/-- One more sentence, and the white space behind it. -/
def Step.extend (step : Step ε κ) (found : TypeReading ε κ) : Step ε κ :=
  let (stop, gap) := readGap found.stop
  let sentence : Node ε κ :=
    .covering step.stop found.stop none (.alternative found.chosen) found.children
  ⟨stop, step.nodes ++ sentence :: gap, !gap.isEmpty⟩

/-- All ways to go on from a step by one sentence, and those cut off by the end of the text. -/
def advance (scope : Scope ε κ) (named : TypeReader ε κ) (first : Bool) (step : Step ε κ) :
    Search ε κ (List (Step ε κ) × List (List (Node ε κ))) := do
  let atEnd := step.stop.rest = []
  if step.separated then
    if ¬first ∧ ¬atEnd then expect scope step.stop .endOfInput
    let readings ← readAlternatives scope named scope.registry.sentences step.stop
    return (readings.whole.map step.extend,
      readings.cut.map fun (chosen, children) =>
        step.nodes ++ [.cutOff step.stop none (.alternative chosen) children])
  else
    if ¬atEnd then expect scope step.stop .sentenceBreak
    return ([], [])

/-- Add one sentence after the other to the steps of the frontier. Each step that is kept stops at
a place that no earlier one stopped at, so the rounds are bounded by the places of the text. -/
def rounds (scope : Scope ε κ) (named : TypeReader ε κ) :
    Nat → Bool → List Nat → List (Step ε κ) → ScriptReadings ε κ → Search ε κ (ScriptReadings ε κ)
  | 0, _, _, _, readings => return readings
  | left + 1, first, seen, frontier, readings => do
    let whole := match readings.whole with
      | some nodes => some nodes
      | none => (frontier.find? fun step => step.stop.rest.isEmpty).map Step.nodes
    if whole.isSome ∧ ¬scope.completing then return { readings with whole }
    else if frontier.isEmpty ∨ ¬(first ∨ scope.config.severalSentences) then
      if whole.isNone then frontier.forM fun step => expect scope step.stop .endOfInput
      return { readings with whole }
    else
      let found ← frontier.mapM (advance scope named first)
      let next := keepNew (fun step => step.stop.offset) seen (found.flatMap Prod.fst)
      rounds scope named left false (next.map (fun step => step.stop.offset) ++ seen) next
        ⟨whole, readings.cut ++ found.flatMap Prod.snd⟩

/-- Read a whole text: sentences with white space around and between them, fewest sentences
first. -/
def readScript (scope : Scope ε κ) (start : Cursor) : Search ε κ (ScriptReadings ε κ) :=
  let (stop, leading) := readGap start
  rounds scope (readType (levelsFor scope.registry start.rest)) (Text.byteSize start.rest + 2) true
    [stop.offset] [⟨stop, leading, true⟩] {}

/-- Run a search through a text from its beginning. -/
def searchText (registry : Registry ε κ) (config : Config) (completing : Bool) (text : String) :
    ScriptReadings ε κ × NoMatch :=
  let start := Cursor.ofText text
  let scope : Scope ε κ := { registry, config, completing }
  let (readings, progress) := (readScript scope start).run { failure := { place := start } }
  (readings, progress.failure.report)

/-- The tree of a text that is a script. -/
def parse (registry : Registry ε κ) (config : Config) (text : String) :
    Except NoMatch (Node ε κ) :=
  let (readings, failure) := searchText registry config false text
  match readings.whole with
  | some nodes =>
    let start := Cursor.ofText text
    .ok (.covering start start.finish none .script nodes)
  | none => .error failure

/-- Every way to read a text as whole sentences followed by an unfinished one. This fails only if
the text is neither a script nor the beginning of one. -/
def unfinished (registry : Registry ε κ) (config : Config) (text : String) :
    Except NoMatch (List (Node ε κ)) :=
  let (readings, failure) := searchText registry config true text
  if readings.cut.isEmpty ∧ readings.whole.isNone then .error failure
  else .ok (readings.cut.map fun nodes => .cutOff (Cursor.ofText text) none .script nodes)

end SentenceGrammar.Matching
