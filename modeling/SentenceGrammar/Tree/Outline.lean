import SentenceGrammar.Tree.Node

/-!
# Outlines of trees

A tree as indented lines, one for each node, and as one line of nested records.
-/
namespace SentenceGrammar.Node

variable {ε κ : Type}

/-- The word for a node in an outline. -/
def heading (node : Node ε κ) : String :=
  match node.kind with
  | .script => "script"
  | .alternative chosen =>
    match chosen.owner with
    | some type => "type " ++ type
    | none => "sentence"
  | .repetition quantifier => "repeat " ++ quantifier.render
  | .literal _ => "literal"
  | .builtin type => type.name
  | .run => "run"
  | .gap => "gap"

/-- The line of one node, with two spaces for each level above it. -/
def outlineLine (depth : Nat) (node : Node ε κ) : String :=
  let name := match node.name with
    | some name => " " ++ name
    | none => ""
  String.ofList (List.replicate (2 * depth) ' ') ++ node.heading ++ name ++ " " ++
    node.span.render ++ " " ++ Text.quote node.text ++ "\n"

mutual

def outlineFrom (depth : Nat) : Node ε κ → String
  | ⟨kind, name, span, covered, complete, children⟩ =>
    outlineLine depth ⟨kind, name, span, covered, complete, children⟩ ++
      outlineAll (depth + 1) children

def outlineAll (depth : Nat) : List (Node ε κ) → String
  | [] => ""
  | node :: rest => outlineFrom depth node ++ outlineAll depth rest

end

/-- The outline of a tree. -/
def outline (node : Node ε κ) : String := outlineFrom 0 node

mutual

/-- A tree as nested records. -/
def describe : Node ε κ → String
  | ⟨kind, name, span, covered, complete, children⟩ =>
    let shown := text ⟨kind, name, span, covered, complete, children⟩
    let name := match name with
      | some name => "Some(" ++ Text.quote name ++ ")"
      | none => "None"
    "ParsedNode \x7b name: " ++ name ++ ", span: " ++ span.render ++
      ", text: " ++ Text.quote shown ++ ", complete: " ++ toString complete ++
      ", children: [" ++ ", ".intercalate (describeAll children) ++ "] \x7d"

def describeAll : List (Node ε κ) → List String
  | [] => []
  | node :: rest => describe node :: describeAll rest

end

/-- The message for a script that was read from `path`. -/
def summary (path : String) (withOutline : Bool) (node : Node ε κ) : String :=
  let count := node.sentences.length
  let plural := if count = 1 then "" else "s"
  "OK: " ++ path ++ " (" ++ toString count ++ " sentence" ++ plural ++ ")\n" ++
    if withOutline then node.outline else ""

end SentenceGrammar.Node
