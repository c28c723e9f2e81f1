import SentenceGrammar.Diagnostic.Basic
import SentenceGrammar.Text.Lines

/-!
# Reports for a terminal

A diagnostic is written as its headline, one snippet for each label and one line for each note.
A snippet shows the line of the source that the label starts in, with carets under the labelled
characters of that line.
-/
namespace SentenceGrammar

inductive ColorMode where
  | auto | always | never
  deriving DecidableEq, Repr, Inhabited

namespace ColorMode

/-- The mode of a command-line flag. -/
def ofFlag? : String → Option ColorMode
  | "auto" => some auto
  | "always" => some always
  | "never" => some never
  | _ => none

/-- Whether to write colors; the automatic mode does so on a terminal. -/
def enabled (mode : ColorMode) (isTerminal : Bool) : Bool :=
  match mode with
  | auto => isTerminal
  | always => true
  | never => false

def describe : ColorMode → String
  | auto => "Auto"
  | always => "Always"
  | never => "Never"

end ColorMode

namespace Diagnostic

/-- The source text that labels point into, under its name. -/
structure Source where
  name : String
  text : String
  deriving DecidableEq, Repr

def red : String := "\x1b[1;31m"

def bold : String := "\x1b[1m"

def reset : String := "\x1b[0m"

/-- A text in the given style if colors are on. -/
def paint (colors : Bool) (style text : String) : String :=
  if colors then style ++ text ++ reset else text

def spaces (n : Nat) : String := String.ofList (List.replicate n ' ')

/-- The number of carets under a label: its characters on its first line, and at least one. -/
def caretCount (text : List Char) (span : Span) : Nat :=
  match span.slice? text with
  | none => 1
  | some inside => max 1 ((Text.lines inside).headD []).length

/-- The line of the source that a snippet shows. -/
def shownLine (text : List Char) (line : Nat) : List Char := (Text.lines text).getD (line - 1) []

def renderLabel (colors : Bool) (source : Option Source) (label : Label) : String :=
  match source with
  | none => "  --> " ++ label.span.render ++ ": " ++ paint colors red label.message ++ "\n"
  | some source =>
    let text := source.text.toList
    let (line, column) := Text.lineColumn text label.span.start
    let number := toString line
    let margin := spaces number.length
    let carets := String.ofList (List.replicate (caretCount text label.span) '^')
    margin ++ "--> " ++ source.name ++ ":" ++ number ++ ":" ++ toString column ++ "\n" ++
      margin ++ " |\n" ++
      number ++ " | " ++ String.ofList (shownLine text line) ++ "\n" ++
      margin ++ " | " ++ spaces (column - 1) ++
        paint colors red (carets ++ " " ++ label.message) ++ "\n"

def renderNote (colors : Bool) (note : String) : String :=
  "  = " ++ paint colors bold "note" ++ ": " ++ note ++ "\n"

/-- The whole report, closed by an empty line. -/
def render (colors : Bool) (source : Option Source) (diagnostic : Diagnostic) : String :=
  paint colors red "error" ++ paint colors bold ("[" ++ diagnostic.code.text ++ "]") ++ ": " ++
    diagnostic.message ++ "\n" ++
    String.join (diagnostic.labels.map (renderLabel colors source)) ++
    String.join (diagnostic.notes.map (renderNote colors)) ++ "\n"

end Diagnostic
end SentenceGrammar
