import SentenceGrammar.Text.Bytes

/-!
# Spans

A span is a range of byte offsets of a text. An offset that does not fit into 32 bits is held at
the largest one that does.
-/
namespace SentenceGrammar

structure Span where
  start : Nat
  stop : Nat
  deriving DecidableEq, Repr, Inhabited

namespace Span

/-- The largest offset that a span can hold. -/
def limit : Nat := 0xFFFFFFFF

def ofOffsets (start stop : Nat) : Span := ⟨min start limit, min stop limit⟩

def size (span : Span) : Nat := span.stop - span.start

def isEmpty (span : Span) : Bool := span.start == span.stop

/-- The characters of `text` inside the span, unless it is reversed, reaches past the end or cuts a
character. -/
def slice? (span : Span) (text : List Char) : Option (List Char) :=
  if span.start ≤ span.stop then do
    let (_, rest) ← Text.splitAt? span.start text
    let (inside, _) ← Text.splitAt? (span.stop - span.start) rest
    pure inside
  else none

/-- The part inside the span of a text that begins where the span does, unless the span ends inside
a character of it or behind it. -/
def part? (span : Span) (text : List Char) : Option (List Char) :=
  (Text.splitAt? span.size text).map Prod.fst

/-- Written as `start..stop`. -/
def render (span : Span) : String := toString span.start ++ ".." ++ toString span.stop

end Span
end SentenceGrammar
