import SentenceGrammar.Command.Options
import SentenceGrammar.Preprocess.Language
import SentenceGrammar.Tree.Outline

/-!
# The command line

What each command prints and with which status it ends, as a function of its arguments and of the
script that it reads.
-/
namespace SentenceGrammar.Command

/-- What a command prints, and the status it ends with. -/
structure Report where
  status : Nat := 0
  output : String := ""
  errors : String := ""
  deriving DecidableEq, Repr

/-- What is found where a script is read from. -/
inductive Contents where
  | text (text : String)
  | missing
  /-- Reading is not permitted. -/
  | denied
  /-- The bytes are no text. -/
  | malformed
  | unreadable (reason : String)
  deriving DecidableEq, Repr

/-- The lines of a text, each one ended. -/
def joinLines (lines : List String) : String := String.join (lines.map (· ++ "\n"))

def prints (lines : List String) : Report := { output := joinLines lines }

def failsWith (lines : List String) : Report := { status := 1, errors := joinLines lines }

def usage : List String :=
  ["nlsc - image-preprocessing scripts in plain sentences",
    "",
    "Usage: nlsc <command> [options]",
    "",
    "Commands:",
    "  grammar              List the sentences and types of the language",
    "  check <file|->       Parse a script and report errors",
    "  run <file|->         Run a script and list the recorded operations",
    "  complete <text>      Print suggestions at the cursor",
    "  explain <code>       Describe an error code",
    "  help                 Show this message",
    "  version              Show version information",
    "",
    "Options:",
    "  --units=<unit>       Physical unit of the image calibration (e.g. mm)",
    "  --pixel-width=<w>    Width of one pixel in that unit",
    "  --cursor=<offset>    Byte offset for `complete` (default: end of text)",
    "  --separator=<text>   Literal between repeated values",
    "  --color=<mode>       auto, always or never",
    "  --tree               Print the parse tree after `check`",
    "",
    "Set NLS_LOG (or RUST_LOG) to enable logging, e.g. NLS_LOG=nls_parse=debug."]

/-- What commands know about their surroundings: whether errors go to a terminal, and what is found
at a path, where `-` is the standard input. -/
structure Surroundings where
  isTerminal : Bool := false
  read : String → Contents

/-- The report of an error, with the source that its labels point into. -/
def reports (around : Surroundings) (options : Options) (source : Option Diagnostic.Source)
    (diagnostic : Diagnostic) : Report :=
  { status := 1
    errors := diagnostic.render (options.color.enabled around.isTerminal) source }

/-- The language without additions of a host. -/
abbrev Workplace := Preprocess.Workplace Empty Empty Unit

def host : Preprocess.Host Empty Empty Unit := fun evaluator _ => nomatch evaluator

def meaning : Meaning (Preprocess.Rule Empty) Empty (Preprocess.World Unit) where
  program := Preprocess.program host
  ask := fun completer _ _ => nomatch completer

/-- Go on with the language as the options configure it. -/
def withLanguage (around : Surroundings) (options : Options) (next : Workplace → Report) :
    Report :=
  match Preprocess.parser options.config with
  | .ok parser =>
    next (parser, { image := { calibration := options.calibration }, beside := () })
  | .error error => reports around options none error.diagnostic

/-- Go on with the script at a path. -/
def withScript (around : Surroundings) (path : String) (next : String → Report) : Report :=
  match around.read path with
  | .text text => next text
  | .missing => failsWith ["cannot find file '" ++ path ++ "'"]
  | .denied => failsWith ["permission denied reading '" ++ path ++ "'"]
  | .malformed =>
    if path = "-" then failsWith ["error reading stdin: stream did not contain valid UTF-8"]
    else failsWith ["'" ++ path ++ "' contains invalid UTF-8 data"]
  | .unreadable reason =>
    if path = "-" then failsWith ["error reading stdin: " ++ reason]
    else failsWith ["error reading '" ++ path ++ "': " ++ reason]

/-- Go on with the first input of a command that reads a script. -/
def withPath (command : String) (options : Options) (next : String → Report) : Report :=
  match options.inputs with
  | path :: _ => next path
  | [] => failsWith ["Usage: nlsc " ++ command ++ " <file|->"]

def check (around : Surroundings) (options : Options) : Report :=
  withPath "check" options fun path =>
  withScript around path fun text =>
  withLanguage around options fun workplace =>
  match ((Parser.parse text).run.run workplace).1 with
  | .ok root => { output := root.summary path options.tree }
  | .error error => reports around options (some ⟨path, text⟩) error.diagnostic

/-- A number in at least three columns. -/
def columns (n : Nat) : String :=
  let digits := toString n
  String.ofList (List.replicate (3 - digits.length) ' ') ++ digits

def run (around : Surroundings) (options : Options) : Report :=
  withPath "run" options fun path =>
  withScript around path fun text =>
  withLanguage around options fun workplace =>
  match ((Preprocess.run host text).run workplace).1 with
  | .ok operations =>
    prints (operations.mapIdx fun i operation => columns (i + 1) ++ ". " ++ operation.render)
  | .error error => reports around options (some ⟨path, text⟩) error.diagnostic

def complete (around : Surroundings) (options : Options) : Report :=
  match options.inputs with
  | [] => failsWith ["Usage: nlsc complete <text> [--cursor=N]", "",
      "Prints the suggestions at the cursor, one per line."]
  | text :: _ =>
    withLanguage around options fun workplace =>
    let cursor := options.cursor.getD text.utf8ByteSize
    match (Parser.autocomplete meaning text cursor).run.run workplace with
    | (.error error, _) => reports around options (some ⟨"<input>", text⟩) error.diagnostic
    | (.ok [], workplace) =>
      match ((Parser.checkCompletion meaning text cursor).run.run workplace).1 with
      | .ok .vetoed => { errors := "no suggestions (type the value)\n" }
      | _ => { errors := "no suggestions\n" }
    | (.ok suggestions, _) => prints (suggestions.map Suggestion.render)

def explain (options : Options) : Report :=
  match options.inputs with
  | [] => failsWith ["Usage: nlsc explain <error-code>", "Example: nlsc explain E1001"]
  | text :: _ =>
    match ErrorCode.ofText? text with
    | some code => prints [code.text ++ ": " ++ code.description]
    | none => failsWith ["Unknown error code: " ++ text, "",
        "Codes have the format EXXXX where X is a digit.", "Examples: E0001, E1001, E3002"]

def grammar (around : Surroundings) (options : Options) : Report :=
  withLanguage around options fun workplace => prints workplace.1.registry.listing

/-- Carry out a command. Its options are read first, whatever the command is. -/
def carryOut (around : Surroundings) (command : String) (arguments : List String) : Report :=
  match Options.read arguments with
  | .error error => failsWith ["error: " ++ error.message]
  | .ok options =>
    match command with
    | "grammar" => grammar around options
    | "check" => check around options
    | "run" => run around options
    | "complete" => complete around options
    | "explain" => explain options
    | "help" | "--help" | "-h" => prints usage
    | "version" | "--version" | "-V" => prints ["nlsc 0.1.0-alpha.1"]
    | _ => { status := 1, output := joinLines usage,
             errors := joinLines ["Unknown command: " ++ command, ""] }

/-- Answer the arguments of the program. -/
def answer (around : Surroundings) : List String → Report
  | [] => prints usage
  | command :: arguments => carryOut around command arguments

/-- The path of the script that the program reads, if it reads one. -/
def scriptPath? : List String → Option String
  | command :: arguments =>
    if command = "check" ∨ command = "run" then
      match Options.read arguments with
      | .ok options => options.inputs.head?
      | .error _ => none
    else none
  | [] => none

end SentenceGrammar.Command
