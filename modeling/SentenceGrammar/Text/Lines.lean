import SentenceGrammar.Text.Span

/-!
# Lines and columns

Lines end at `\n`, and a `\r` just before it belongs to the line ending. Lines and columns count
from one, columns in characters.
-/
namespace SentenceGrammar.Text

/-- The pieces of a text between its newlines; there is always a last one, possibly empty. -/
def segments : List Char → List (List Char)
  | [] => [[]]
  | c :: rest =>
    if c = '\n' then [] :: segments rest
    else match segments rest with
      | [] => [[c]]
      | first :: others => (c :: first) :: others

/-- A line without the carriage return of its ending. -/
def dropReturn (line : List Char) : List Char :=
  if line.getLast? = some '\r' then line.dropLast else line

/-- The lines of a text: what stands before each newline, and what follows the last one unless
that is empty. -/
def lines (text : List Char) : List (List Char) :=
  let pieces := segments text
  let ended := pieces.dropLast.map dropReturn
  match pieces.getLast? with
  | some (c :: last) => ended ++ [c :: last]
  | _ => ended

/-- The part of a text before an offset; all of it if the offset is no place between two
characters. -/
def before (text : List Char) (offset : Nat) : List Char :=
  match splitAt? (min offset (byteSize text)) text with
  | some (front, _) => front
  | none => text

/-- The line and the column of a byte offset. -/
def lineColumn (text : List Char) (offset : Nat) : Nat × Nat :=
  let front := before text offset
  let tail := front.reverse.takeWhile (· != '\n')
  (front.count '\n' + 1, tail.length + 1)

end SentenceGrammar.Text
