import SentenceGrammar.Proofs.Derivation

/-!
# How derivations are laid out

The nodes of a derivation stand side by side between its two places, and the children of a node
between the places of the node. A property of nodes between two places that is kept by both ways to
build them is one of all derivations.
-/
namespace SentenceGrammar.Matching

variable {ε κ : Type}

/-- What has to be shown of nodes between two places so that it holds of every derivation. -/
structure Layout (property : Cursor → Cursor → List (Node ε κ) → Prop) : Prop where
  nil : ∀ place, property place place []
  append : ∀ {start middle stop : Cursor} {before behind : List Char} {nodes others},
    start.Passes before middle → middle.Passes behind stop → property start middle nodes →
      property middle stop others → property start stop (nodes ++ others)
  leaf : ∀ {start stop : Cursor} {word : List Char} (kind : NodeKind ε κ) (name : Option String),
    start.Passes word stop →
      property start stop [⟨kind, name, start.spanTo stop, String.ofList word, true, []⟩]
  parent : ∀ {start stop : Cursor} {word : List Char} {nodes} (kind : NodeKind ε κ)
    (name : Option String), start.Passes word stop → property start stop nodes →
      property start stop [⟨kind, name, start.spanTo stop, String.ofList word, true, nodes⟩]

namespace Layout

variable {property : Cursor → Cursor → List (Node ε κ) → Prop} (layout : Layout property)
  {rules : String → List (Alternative ε κ)} {config : Config}

include layout

theorem literal {text : String} {start stop : Cursor} (passes : start.Passes text.toList stop) :
    property start stop [⟨.literal text, none, start.spanTo stop, text, true, []⟩] := by
  have leaf := layout.leaf (.literal text) none passes
  rwa [String.ofList_toList] at leaf

theorem opening {count : Nat} {start stop : Cursor} {nodes : List (Node ε κ)}
    (opening : Opening config count start stop nodes) : property start stop nodes := by
  cases opening with
  | first => exact layout.nil _
  | adjacent => exact layout.nil _
  | separated _ _ passes => exact layout.literal passes

mutual

theorem unit {slot : Placeholder} {start stop : Cursor} {node : Node ε κ} :
    DerivesUnit rules config slot start stop node → property start stop [node]
  | .number _ _ passes => layout.leaf _ _ passes
  | .type _ _ nodes passes => layout.parent _ _ passes (items nodes)

theorem units {slot : Placeholder} {count total : Nat} {start stop : Cursor}
    {nodes : List (Node ε κ)} :
    DerivesUnits rules config slot count total start stop nodes → property start stop nodes
  | .done _ _ place => layout.nil place
  | .more separator node _ rest => by
    obtain ⟨_, before⟩ := separator.passes
    obtain ⟨_, within⟩ := node.passes
    obtain ⟨_, behind⟩ := rest.passes
    have further := layout.append within behind (unit node) (units rest)
    exact layout.append before (within.trans behind) (layout.opening separator) further

theorem item {item : Item} {start stop : Cursor} {node : Node ε κ} :
    DerivesItem rules config item start stop node → property start stop [node]
  | .literal passes => layout.literal passes
  | .run _ _ _ passes => layout.leaf _ _ passes
  | .single _ _ node => unit node
  | .repetition _ _ _ nodes passes => layout.parent _ _ passes (units nodes)

theorem items {items : List Item} {start stop : Cursor} {nodes : List (Node ε κ)} :
    DerivesItems rules config items start stop nodes → property start stop nodes
  | .nil place => layout.nil place
  | .cons first others => by
    obtain ⟨_, within⟩ := first.passes
    obtain ⟨_, behind⟩ := others.passes
    exact layout.append within behind (item first) (Layout.items others)

end

end Layout

end SentenceGrammar.Matching
