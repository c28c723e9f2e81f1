import SentenceGrammar.Evaluation.Memo
import SentenceGrammar.Parser
import SentenceGrammar.Preprocess.Operation

/-!
# The preprocessing language

Sentences such as `Normalize intensities.` record operations. Sizes are given in pixels or in the
unit of the calibration: a listener defines the type `units` anew before every pass.

A host may add definitions of its own to the grammar. Their evaluators are of the type `ε`, and
`τ` is the state that they work on.
-/
namespace SentenceGrammar.Preprocess

/-- The evaluators of the language, and those of the host. -/
inductive Rule (ε : Type) where
  /-- Whether the unit is a physical one. -/
  | unit (physical : Bool)
  | filterSize
  | gaussianBlur
  | medianFilter (size : String)
  | normalizeIntensities
  | subtractBackground
  | unsharpMask
  | localContrast
  | own (evaluator : ε)
  deriving DecidableEq

/-- The state that a script works on: the image, and beside it the state of the host. -/
structure World (τ : Type) where
  image : ImageSession := {}
  beside : τ

variable {ε κ τ : Type}

/-- The evaluators of the host on nodes of the whole grammar. -/
abbrev Host (ε κ τ : Type) := ε → Node (Rule ε) κ → Program (World τ)

def record (operation : Operation) : Program (World τ) :=
  .change (fun world => { world with image := world.image.record operation }) (.value .void)

/-- A size is converted to pixels when it is evaluated. Radii are whole pixels. -/
def program (host : Host ε κ τ) (rule : Rule ε) (node : Node (Rule ε) κ) :
    Program (World τ) :=
  match rule with
  | .unit physical => .value (.bool physical)
  | .filterSize =>
    .typed [] node "stddev" Value.toFloat fun size =>
    .typed [] node "units" Value.toBool fun physical =>
    .inspect fun world => .value (.float (world.image.calibration.toPixels size physical))
  | .gaussianBlur =>
    .typed [] node "stddev" Value.toFloat fun deviation => record (.gaussianBlur deviation)
  | .medianFilter size =>
    .typed [] node size Value.toFloat fun radius =>
    record (.medianFilter (Decimal.nearestInt64 radius))
  | .normalizeIntensities => record .normalizeIntensities
  | .subtractBackground =>
    .typed [] node "window-size" Value.toFloat fun radius =>
    record (.subtractBackground (Decimal.nearestInt64 radius))
  | .unsharpMask =>
    .typed [] node "radius" Value.toFloat fun radius =>
    .typed [] node "weight" Value.toFloat fun weight =>
    record (.unsharpMask radius weight)
  | .localContrast =>
    .typed [] node "block-size" Value.toInt fun blockSize =>
    .typed [] node "bins" Value.toInt fun bins =>
    .typed [] node "slope" Value.toInt fun slope =>
    .typed [] node "image" Value.toStr fun mask =>
    record (.localContrast blockSize bins slope mask)
  | .own evaluator => host evaluator node

/-- Define the type `units` anew from the calibration. -/
def followCalibration : GrammarWork (Rule ε) κ (World τ) Unit := do
  let calibration := (← get).2.image.calibration
  GrammarWork.change fun registry => (registry.undefine "units").mapError .registry
  GrammarWork.change fun registry =>
    (registry.defineType "units" "pixel(s)" (.unit false)).mapError .pattern
  if calibration.isCalibrated then
    GrammarWork.change fun registry =>
      (registry.defineType "units" calibration.unit (.unit true)).mapError .pattern

/-- The sentences of the language with their evaluators. -/
def sentences : List (String × Rule ε) :=
  [("Apply Gaussian blurring with a standard deviation of \x7bstddev:filter-size\x7d.",
      .gaussianBlur),
    ("Apply Median filtering with a window of radius \x7bwindow-size:filter-size\x7d.",
      .medianFilter "window-size"),
    ("Normalize intensities.", .normalizeIntensities),
    ("Subtract the background with a standard deviation of \x7bwindow-size:filter-size\x7d.",
      .subtractBackground),
    ("Apply a Median filter with radius of \x7bradius:filter-size\x7d.", .medianFilter "radius"),
    ("Apply an Unsharp Mask with radius of \x7bradius:filter-size\x7d " ++
      "and mask weight of \x7bweight:float\x7d.", .unsharpMask),
    ("Enhance local contrast via CLAHE with a blocksize of \x7bblock-size:int\x7d, " ++
      "\x7bbins:int\x7d histogram bins and a max slope of \x7bslope:int\x7d, " ++
      "using \x7bimage:[a-z-]:+\x7d as a mask.", .localContrast)]

/-- All definitions of the language. -/
def definitions : List (Definition (Rule ε) κ) :=
  { name := some "units", pattern := "pixel(s)", evaluator := some (.unit false) } ::
  { name := some "filter-size", pattern := "\x7bstddev:float\x7d \x7bunits:units\x7d",
    evaluator := some .filterSize, insertWhole := true } ::
  sentences.map fun (pattern, rule) => { name := none, pattern, evaluator := some rule }

/-- The grammar of the language before the first pass. -/
def grammar : Except PatternError (Registry (Rule ε) κ) := definitions.foldlM Registry.define {}

/-- A parser for the language. -/
def parser (config : Config) : Except PatternError (Parser (Rule ε) κ (World τ)) :=
  grammar.map fun registry => { registry, listeners := [followCalibration], config }

/-- Why a script could not be run. -/
inductive RunError where
  | parse (error : ParseError)
  | eval (error : EvalError)
  deriving DecidableEq, Repr

def RunError.diagnostic : RunError → Diagnostic
  | parse error => error.diagnostic
  | eval error => error.diagnostic

/-- A parser for the language with the state of its image. -/
abbrev Workplace (ε κ τ : Type) := Parser (Rule ε) κ (World τ) × World τ

/-- Forget the recorded operations. -/
def clear (world : World τ) : World τ :=
  { world with image := { world.image with operations := [] } }

/-- Read a script and evaluate its sentences. The recorded operations are handed out; a failed
evaluation leaves those it recorded. -/
def run [DecidableEq ε] [DecidableEq κ] (host : Host ε κ τ) (script : String) :
    StateM (Workplace ε κ τ) (Except RunError (List Operation)) := do
  modify fun (parser, world) => (parser, clear world)
  match ← (Parser.parse script).run with
  | .error error => return .error (.parse error)
  | .ok root =>
    let (parser, world) ← get
    let (result, memo) := (root.runAt (program host) []).run ⟨[], world⟩
    match result with
    | .error error => do
      set (parser, memo.surroundings)
      return .error (.eval error)
    | .ok _ => do
      set (parser, clear memo.surroundings)
      return .ok memo.surroundings.image.operations

/-- A new calibration takes effect with the next pass. -/
def setCalibration (calibration : Calibration) (workplace : Workplace ε κ τ) : Workplace ε κ τ :=
  (workplace.1,
    { workplace.2 with image := { workplace.2.image with calibration := calibration } })

def describe (workplace : Workplace ε κ τ) : String :=
  "Preprocessing \x7b parser: " ++ workplace.1.describe ++
    ", session: " ++ workplace.2.image.describe ++ " \x7d"

end SentenceGrammar.Preprocess
