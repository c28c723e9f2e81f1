import SentenceGrammar.Tree.Node

/-!
# Equality of nodes

Whether two nodes are equal can be decided if evaluators and completers can be told apart.
-/
namespace SentenceGrammar

deriving instance DecidableEq for NodeKind

namespace Node

variable {ε κ : Type} [DecidableEq ε] [DecidableEq κ]

mutual

def decideEq : (a b : Node ε κ) → Decidable (a = b)
  | ⟨kind, name, span, covered, complete, children⟩,
      ⟨kind', name', span', covered', complete', children'⟩ =>
    have := decideEqAll children children'
    decidable_of_iff (kind = kind' ∧ name = name' ∧ span = span' ∧ covered = covered' ∧
      complete = complete' ∧ children = children') (by simp)

def decideEqAll : (as bs : List (Node ε κ)) → Decidable (as = bs)
  | [], [] => isTrue rfl
  | [], _ :: _ | _ :: _, [] => isFalse nofun
  | a :: as, b :: bs =>
    have := decideEq a b
    have := decideEqAll as bs
    decidable_of_iff (a = b ∧ as = bs) (by simp)

end

instance : DecidableEq (Node ε κ) := decideEq

end Node
end SentenceGrammar
