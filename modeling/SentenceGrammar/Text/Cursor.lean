import SentenceGrammar.Text.Span

/-!
# Cursors

A cursor is a place in a text together with what is left of the text from there on. Scanners move
a cursor forward character by character, so its offset always lies on a character boundary.
-/
namespace SentenceGrammar

structure Cursor where
  offset : Nat
  rest : List Char
  deriving DecidableEq, Repr, Inhabited

namespace Cursor

def ofText (text : String) : Cursor := ⟨0, text.toList⟩

/-- The cursor behind the characters `passed`, of which `rest` is left. -/
def past (cursor : Cursor) (passed rest : List Char) : Cursor :=
  ⟨cursor.offset + Text.byteSize passed, rest⟩

/-- The cursor at the end of the text. -/
def finish (cursor : Cursor) : Cursor := cursor.past cursor.rest []

def atEnd (cursor : Cursor) : Bool := cursor.rest.isEmpty

/-- The characters between a cursor and a later one of the same text. -/
def upTo (cursor later : Cursor) : List Char :=
  Text.takeBytes (later.offset - cursor.offset) cursor.rest

def spanTo (cursor later : Cursor) : Span := Span.ofOffsets cursor.offset later.offset

/-- Move over the longest run of characters that satisfy `accepts`. -/
def skipWhile (accepts : Char → Bool) (cursor : Cursor) : Cursor :=
  cursor.past (cursor.rest.takeWhile accepts) (cursor.rest.dropWhile accepts)

end Cursor
end SentenceGrammar
