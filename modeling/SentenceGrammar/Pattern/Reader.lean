import SentenceGrammar.Pattern.Basic
import SentenceGrammar.Pattern.Fault
import SentenceGrammar.Text.Cursor

/-!
# Reading patterns

A pattern is read from left to right: literal text up to the next brace, then a placeholder, and so
on. Outside of placeholders a backslash keeps a brace or another backslash from being special, and
stands for itself before anything else.
-/
namespace SentenceGrammar

/-- A name of a placeholder or a type: letters, numerals, `-` and `_`, at least one of them. -/
def isIdentifier (name : List Char) : Bool :=
  !name.isEmpty && name.all fun c => Text.isAlphanumeric c || c == '-' || c == '_'

namespace Pattern

/-- Why reading failed, and where. -/
abbrev Fault := PatternCause × Span

/-- The literal text from a cursor up to the next brace, with escapes resolved, and what is left. -/
def readLiteral (cursor : Cursor) : List Char × Cursor :=
  let (text, passed, rest) := go cursor.rest
  (text, cursor.past passed rest)
where
  /-- The resolved text, the characters it was written with, and those behind. -/
  go : List Char → List Char × List Char × List Char
    | [] => ([], [], [])
    | '\\' :: [] => (['\\'], ['\\'], [])
    | '\\' :: c :: rest =>
      let (text, passed, left) := go rest
      if c = '{' ∨ c = '}' ∨ c = '\\' then (c :: text, '\\' :: c :: passed, left)
      else ('\\' :: c :: text, '\\' :: c :: passed, left)
    | c :: rest =>
      if c = '{' ∨ c = '}' then ([], [], c :: rest)
      else
        let (text, passed, left) := go rest
        (c :: text, c :: passed, left)

/-- The text up to the first of the `stops`. A placeholder is never closed if the pattern ends or
another one opens before that. -/
def readUntil (stops : List Char) (opening cursor : Cursor) :
    Except Fault (List Char × Cursor) :=
  let special := fun c => !(stops.contains c || c == '{')
  let next := cursor.skipWhile special
  match next.rest with
  | [] => .error (.unclosedPlaceholder, opening.spanTo next)
  | c :: _ =>
    if stops.contains c then .ok (cursor.rest.takeWhile special, next)
    else .error (.unclosedPlaceholder, opening.spanTo next)

/-- The body of a character class and what follows its closing bracket, which is the first one
without a backslash. -/
def readClassBody : List Char → Option (List Char × List Char)
  | [] => none
  | '\\' :: [] => none
  | '\\' :: c :: rest => (readClassBody rest).map fun (body, left) => ('\\' :: c :: body, left)
  | c :: rest =>
    if c = ']' then some ([], rest)
    else (readClassBody rest).map fun (body, left) => (c :: body, left)

/-- The target at a cursor and the cursor behind it. -/
def readTarget (name : List Char) (opening cursor : Cursor) : Except Fault (Target × Cursor) :=
  match cursor.rest with
  | '[' :: inside =>
    match readClassBody inside with
    | none => .error (.unclosedPlaceholder, opening.spanTo cursor.finish)
    | some (body, left) =>
      let next := cursor.past ('[' :: body ++ [']']) left
      match CharClass.read (String.ofList body) with
      | .ok set => .ok (.charClass set, next)
      | .error fault => .error (.malformedClass fault, cursor.spanTo next)
  | _ => do
    let (written, next) ← readUntil [':', '}'] opening cursor
    let type := Text.trim written
    let text := String.ofList type
    if type = [] then throw (.emptyType (String.ofList name), opening.spanTo next)
    match Builtin.ofName? text with
    | some builtin => return (.builtin builtin, next)
    | none =>
      if isIdentifier type then return (.named text, next)
      else throw (.invalidTypeName text, cursor.spanTo next)

/-- The quantifier behind a target, and the cursor behind the closing brace. -/
def readQuantifier (opening target cursor : Cursor) : Except Fault (Quantifier × Cursor) :=
  match cursor.rest with
  | [] => .error (.unclosedPlaceholder, opening.spanTo cursor)
  | '}' :: rest => .ok (.one, cursor.past ['}'] rest)
  | ':' :: rest => do
    let start := cursor.past [':'] rest
    let (text, next) ← readUntil ['}'] opening start
    match Quantifier.read? (Text.trim text) with
    | some quantifier => return (quantifier, next.past ['}'] (next.rest.drop 1))
    | none => throw (.unknownQuantifier (String.ofList text), start.spanTo next)
  | c :: rest => .error (.malformedClass .trailingText, target.spanTo (cursor.past [c] rest))

/-- The placeholder whose brace opens at the cursor, and the cursor behind its closing brace. -/
def readPlaceholder (opening : Cursor) : Except Fault (Placeholder × Cursor) := do
  let start := opening.past ['{'] (opening.rest.drop 1)
  let (written, next) ← readUntil [':', '}'] opening start
  let name := Text.trim written
  if name = [] then throw (.emptyName, opening.spanTo next)
  if !isIdentifier name then throw (.invalidName (String.ofList name), opening.spanTo next)
  let target := next.past (next.rest.take 1) (next.rest.drop 1)
  if next.rest.head? = some '}' then
    throw (.emptyType (String.ofList name), opening.spanTo target)
  let (type, behind) ← readTarget name opening target
  let (quantifier, stop) ← readQuantifier opening target behind
  return (⟨String.ofList name, type, quantifier, opening.spanTo stop⟩, stop)

/-- The items from a cursor on. Every placeholder takes at least one character, so as many steps
as there are characters always suffice. -/
def readItems : Nat → Cursor → Except Fault (List Item)
  | 0, _ => .ok []
  | steps + 1, cursor =>
    let (text, next) := readLiteral cursor
    let literal :=
      if text = [] then [] else [Item.literal (String.ofList text) (cursor.spanTo next)]
    match next.rest with
    | [] => .ok literal
    | '{' :: _ => do
      let (slot, behind) ← readPlaceholder next
      return literal ++ .placeholder slot :: (← readItems steps behind)
    | c :: rest => .error (.unmatchedClose, next.spanTo (next.past [c] rest))

/-- Read a pattern. -/
def read (source : String) : Except PatternError Pattern :=
  let start := Cursor.ofText source
  match readItems (start.rest.length + 1) start with
  | .ok items => .ok ⟨source, items⟩
  | .error (cause, span) => .error ⟨cause, span, source⟩

end Pattern

/-- Check that a name can be given to a type: it is an identifier and no built-in type has it. -/
def checkTypeName (name : String) : Except PatternError Unit :=
  let span := Span.ofOffsets 0 name.utf8ByteSize
  if !isIdentifier name.toList then .error ⟨.invalidTypeName name, span, name⟩
  else if (Builtin.ofName? name).isSome then .error ⟨.reservedTypeName name, span, name⟩
  else .ok ()

end SentenceGrammar
