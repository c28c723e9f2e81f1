import SentenceGrammar.Pattern.Quantifier
import SentenceGrammar.Text.Cursor

/-!
# Scanning terminals

Literals, runs of characters and numbers. A scan lists every place where its terminal may stop,
the longest reading first, and tells whether it was the end of the text that stopped it.
-/
namespace SentenceGrammar.Matching

/-- What became of a literal at some place. -/
inductive LiteralScan where
  | whole (stop : Cursor)
  /-- The text ended before `missing`. -/
  | ended (missing : List Char)
  /-- At `place` the text goes on with something else than `missing`. -/
  | differs (place : Cursor) (missing : List Char)
  deriving DecidableEq, Repr

def scanLiteral : List Char → Cursor → LiteralScan
  | [], cursor => .whole cursor
  | c :: more, cursor =>
    match cursor.rest with
    | [] => .ended (c :: more)
    | d :: rest =>
      if c = d then scanLiteral more (cursor.past [d] rest) else .differs cursor (c :: more)

/-- What became of a repeated terminal: where it may stop, the longest reading first, and the
place that the scan could not get past. -/
structure Scan where
  stops : List Cursor
  reached : Cursor
  deriving DecidableEq, Repr

/-- A run of accepted characters after `done` of them, as many as the quantifier allows. It may
stop wherever the quantifier's least count is reached. The flag tells whether one more character
would have been allowed. -/
def scanRun (quantifier : Quantifier) (accepts : Char → Bool) (stops : List Cursor) (done : Nat)
    (offset : Nat) (rest : List Char) : Scan × Bool :=
  let stops := if quantifier.least ≤ done then ⟨offset, rest⟩ :: stops else stops
  match rest with
  | [] => (⟨stops, ⟨offset, []⟩⟩, quantifier.allowsMore done)
  | c :: more =>
    if quantifier.allowsMore done && accepts c then
      scanRun quantifier accepts stops (done + 1) (offset + c.utf8Size) more
    else (⟨stops, ⟨offset, c :: more⟩⟩, quantifier.allowsMore done)

/-- A row of digits, which may stop behind each of them. -/
def scanDigits (stops : List Cursor) (offset : Nat) : List Char → Scan
  | [] => ⟨stops, ⟨offset, []⟩⟩
  | c :: rest =>
    if Text.isAsciiDigit c then
      let next : Cursor := ⟨offset + c.utf8Size, rest⟩
      scanDigits (next :: stops) next.offset rest
    else ⟨stops, ⟨offset, c :: rest⟩⟩

/-- The place behind an optional character. -/
def skipOne (chars : List Char) (cursor : Cursor) : Cursor :=
  match cursor.rest with
  | c :: rest => if chars.contains c then cursor.past [c] rest else cursor
  | [] => cursor

/-- An optional sign and digits. -/
def scanWhole (cursor : Cursor) : Scan :=
  let start := skipOne ['+', '-'] cursor
  scanDigits [] start.offset start.rest

/-- A point with optional digits behind the digits scanned so far. Without a digit before it, the
point alone is no number. -/
def scanPlaces (scan : Scan) : Scan :=
  match scan.reached.rest with
  | '.' :: rest =>
    let point := scan.reached.past ['.'] rest
    let stops := if scan.stops = [] then [] else point :: scan.stops
    scanDigits stops point.offset rest
  | _ => scan

/-- An exponent behind a number. -/
def scanExponent (scan : Scan) : Scan :=
  let behind := skipOne ['e', 'E'] scan.reached
  if scan.stops = [] ∨ behind.offset = scan.reached.offset then scan
  else
    let digits := skipOne ['+', '-'] behind
    scanDigits scan.stops digits.offset digits.rest

/-- An integer, or a number with optional point and exponent. -/
def scanNumber (isFloat : Bool) (cursor : Cursor) : Scan :=
  if isFloat then scanExponent (scanPlaces (scanWhole cursor)) else scanWhole cursor

end SentenceGrammar.Matching
