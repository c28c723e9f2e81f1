import SentenceGrammar.Grammar.Alternative
import SentenceGrammar.Text.Cursor

/-!
# Parse trees

A node covers a stretch of the text, and shows what its span cuts out of the text. Both are the same
as long as no offset is held at the largest one that a span can tell. The leaves of a tree stand side
by side and cover all that the tree covers. A node is incomplete if the text ended before the node
did.
-/
namespace SentenceGrammar

/-- What a node stands for. -/
inductive NodeKind (ε κ : Type) where
  /-- The whole text: sentences and the gaps between them. -/
  | script
  /-- A sentence, or a type that fills a placeholder. -/
  | alternative (chosen : Alternative ε κ)
  /-- Repeated units with separators in between. -/
  | repetition (quantifier : Quantifier)
  /-- Literal text of a pattern, or as much of it as was typed. -/
  | literal (text : String)
  /-- A number, or a single character of a built-in type. -/
  | builtin (type : Builtin)
  /-- Characters of a class or of a repeated built-in type. -/
  | run
  /-- White space between sentences. -/
  | gap

structure Node (ε κ : Type) where
  kind : NodeKind ε κ
  /-- The name of the placeholder that the node fills. -/
  name : Option String
  span : Span
  /-- The stretch of the text that the node covers, wherever it stands. -/
  covered : String
  complete : Bool
  children : List (Node ε κ)

namespace Node

variable {ε κ : Type}

/-- The text that the node shows, which is what its span cuts out of the whole text: as much of what
it covers as its span holds, and nothing if the span ends inside a character. -/
def text (node : Node ε κ) : String :=
  String.ofList ((node.span.part? node.covered.toList).getD [])

/-- The complete node that covers the text between two cursors. -/
def covering (start stop : Cursor) (name : Option String) (kind : NodeKind ε κ)
    (children : List (Node ε κ)) : Node ε κ :=
  ⟨kind, name, start.spanTo stop, String.ofList (start.upTo stop), true, children⟩

/-- The incomplete node that covers the text from a cursor to its end. -/
def cutOff (start : Cursor) (name : Option String) (kind : NodeKind ε κ)
    (children : List (Node ε κ)) : Node ε κ :=
  ⟨kind, name, start.spanTo start.finish, String.ofList start.rest, false, children⟩

/-- The alternative that a sentence or a type was read with. -/
def alternative? (node : Node ε κ) : Option (Alternative ε κ) :=
  match node.kind with
  | .alternative chosen => some chosen
  | _ => none

/-- The type that the node belongs to; sentences have none. -/
def typeName? (node : Node ε κ) : Option String := node.alternative?.bind Alternative.owner

def isGap (node : Node ε κ) : Bool :=
  match node.kind with
  | .gap => true
  | _ => false

def isLiteral (node : Node ε κ) : Bool :=
  match node.kind with
  | .literal _ => true
  | _ => false

/-- The sentences of a script. -/
def sentences (node : Node ε κ) : List (Node ε κ) := node.children.filter fun child => !child.isGap

mutual

/-- The number of nodes in a tree. -/
def size : Node ε κ → Nat
  | ⟨_, _, _, _, _, children⟩ => 1 + sizeAll children

def sizeAll : List (Node ε κ) → Nat
  | [] => 0
  | node :: rest => size node + sizeAll rest

end

mutual

/-- The texts of the leaves, one after the other. -/
def leafText : Node ε κ → String
  | ⟨kind, name, span, covered, complete, []⟩ => text ⟨kind, name, span, covered, complete, []⟩
  | ⟨_, _, _, _, _, first :: rest⟩ => leafText first ++ leafTexts rest

def leafTexts : List (Node ε κ) → String
  | [] => ""
  | node :: rest => leafText node ++ leafTexts rest

end

end Node
end SentenceGrammar
