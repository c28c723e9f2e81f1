import SentenceGrammar.Decimal.Reader
import SentenceGrammar.Diagnostic.Snippet
import SentenceGrammar.Grammar.Config
import SentenceGrammar.Preprocess.Calibration

/-!
# Command-line options

Flags have the form `--name=value`, except for `--tree`. Everything else is an input.
-/
namespace SentenceGrammar.Command

structure Options where
  calibration : Calibration := {}
  color : ColorMode := .auto
  /-- The byte offset for completion; without one, it is the end of the text. -/
  cursor : Option Nat := none
  /-- The literal between repeated values. -/
  separator : Option String := none
  /-- Whether to show the tree of a script that was checked. -/
  tree : Bool := false
  inputs : List String := []
  deriving Inhabited

/-- The configuration of the parser. -/
def Options.config (options : Options) : Config :=
  match options.separator with
  | some separator => { repetition := .separated separator }
  | none => {}

/-- Why an argument is refused. -/
inductive OptionError where
  | missingValue (flag : String)
  | invalidWidth (value : String)
  | widthNotPositive (value : String)
  | invalidCursor (value : String)
  | invalidColor (value : String)
  | unknownFlag (name : String)
  deriving DecidableEq, Repr

def OptionError.message : OptionError → String
  | missingValue flag => "flag '--" ++ flag ++ "' needs a value: --" ++ flag ++ "=<value>"
  | invalidWidth value => "invalid pixel width '" ++ value ++ "'"
  | widthNotPositive value => "pixel width must be positive, got '" ++ value ++ "'"
  | invalidCursor value => "invalid cursor offset '" ++ value ++ "'"
  | invalidColor value =>
    "invalid color mode '" ++ value ++ "' (expected auto, always or never)"
  | unknownFlag name => "unknown flag '--" ++ name ++ "'"

/-- Take a flag with its value into the options. -/
def Options.set (options : Options) (name value : String) : Except OptionError Options :=
  match name with
  | "units" =>
    .ok { options with calibration := { options.calibration with unit := value } }
  | "pixel-width" =>
    match Decimal.readFloat? value.toList with
    | none => .error (.invalidWidth value)
    | some width =>
      if width.isFinite && 0.0 < width then
        .ok { options with calibration := { options.calibration with pixelWidth := width } }
      else .error (.widthNotPositive value)
  | "cursor" =>
    match Decimal.readNat64? value.toList with
    | none => .error (.invalidCursor value)
    | some cursor => .ok { options with cursor := some cursor }
  | "color" =>
    match ColorMode.ofFlag? value with
    | none => .error (.invalidColor value)
    | some color => .ok { options with color }
  | "separator" => .ok { options with separator := some value }
  | _ => .error (.unknownFlag name)

/-- Take one argument into the options. -/
def Options.add (options : Options) (argument : String) : Except OptionError Options :=
  match argument.toList with
  | '-' :: '-' :: flag =>
    if flag = "tree".toList then .ok { options with tree := true }
    else
      match flag.dropWhile (· != '=') with
      | [] => .error (.missingValue (String.ofList flag))
      | _ :: value =>
        options.set (String.ofList (flag.takeWhile (· != '='))) (String.ofList value)
  | _ => .ok { options with inputs := options.inputs ++ [argument] }

/-- The options of the arguments behind the command; the first refused one counts. -/
def Options.read (arguments : List String) : Except OptionError Options :=
  arguments.foldlM Options.add {}

end SentenceGrammar.Command
