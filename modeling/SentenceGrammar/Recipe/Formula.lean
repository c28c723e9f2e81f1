import SentenceGrammar.Evaluation.Program

/-!
# Formulas

Evaluators written as data. A formula reads variables and texts of a node, combines what it reads,
and may write to a log.
-/
namespace SentenceGrammar

inductive Formula where
  | const (value : Value)
  /-- The value of a variable below the node. -/
  | get (name : String)
  /-- The value of a variable at a wanted type. -/
  | getAs (name : String) (type : ValueType)
  | list (formulas : List Formula)
  | fail (message : String)
  /-- The first of the formulas that has a value. -/
  | firstOf (formulas : List Formula)
  /-- A formula for a child of the node. -/
  | child (name : String) (formula : Formula)
  /-- Write the tag and the text of the node to the log, then go on. -/
  | log (tag : String) (formula : Formula)
  /-- The text of the node. -/
  | text
  | nothing
  deriving Inhabited

namespace Value

mutual

/-- Whether two values are identical, so that a float that is not a number is itself. -/
def identical : Value → Value → Bool
  | void, void => true
  | bool a, bool b => a = b
  | int a, int b => a = b
  | float a, float b => a = b
  | char a, char b => a = b
  | str a, str b => a = b
  | list a, list b => identicalAll a b
  | sealed a p, sealed b q => a = b ∧ p = q
  | _, _ => false

def identicalAll : List Value → List Value → Bool
  | [], [] => true
  | a :: rest, b :: others => identical a b && identicalAll rest others
  | _, _ => false

end

mutual

theorem identical_iff : (a b : Value) → (identical a b = true ↔ a = b)
  | void, b | bool _, b | int _, b | float _, b | char _, b | str _, b | sealed _ _, b => by
    cases b <;> simp [identical]
  | list as, b => by cases b <;> simp [identical, identicalAll_iff as]

theorem identicalAll_iff : (as bs : List Value) → (identicalAll as bs = true ↔ as = bs)
  | [], bs => by cases bs <;> simp [identicalAll]
  | a :: as, bs => by cases bs <;> simp [identicalAll, identical_iff a, identicalAll_iff as]

end

instance : DecidableEq Value := fun a b => decidable_of_iff _ (identical_iff a b)

end Value

namespace Formula

mutual

/-- Whether two formulas are written the same. -/
def identical : Formula → Formula → Bool
  | const a, const b => a = b
  | get a, get b => a = b
  | getAs a s, getAs b t => a = b ∧ s = t
  | list a, list b => identicalAll a b
  | fail a, fail b => a = b
  | firstOf a, firstOf b => identicalAll a b
  | child a f, child b g => a = b && identical f g
  | log a f, log b g => a = b && identical f g
  | text, text => true
  | nothing, nothing => true
  | _, _ => false

def identicalAll : List Formula → List Formula → Bool
  | [], [] => true
  | a :: rest, b :: others => identical a b && identicalAll rest others
  | _, _ => false

end

mutual

theorem identical_iff : (a b : Formula) → (identical a b = true ↔ a = b)
  | const _, b | get _, b | getAs _ _, b | fail _, b | text, b | nothing, b => by
    cases b <;> simp [identical]
  | list as, b | firstOf as, b => by cases b <;> simp [identical, identicalAll_iff as]
  | child _ a, b | log _ a, b => by cases b <;> simp [identical, identical_iff a]

theorem identicalAll_iff : (as bs : List Formula) → (identicalAll as bs = true ↔ as = bs)
  | [], bs => by cases bs <;> simp [identicalAll]
  | a :: as, bs => by cases bs <;> simp [identicalAll, identical_iff a, identicalAll_iff as]

end

instance : DecidableEq Formula := fun a b => decidable_of_iff _ (identical_iff a b)

variable {ε κ σ : Type}

mutual

/-- The program of a formula for the node at a path; `write` adds a line to the log. -/
def program (write : String → σ → σ) (path : Node.Path) (node : Node ε κ) : Formula → Program σ
  | const value => .value value
  | get name => .lookup path node name
  | getAs name type => .typed path node name (Value.coerce type) .value
  | list formulas => .all (programs write path node formulas) fun values => .value (.list values)
  | fail message => .fail (.failed message)
  | firstOf formulas => .firstOf (.ok .void) (programs write path node formulas)
  | child name formula =>
    match node.child? name with
    | some (index, below) => program write (path ++ [index]) below formula
    | none => .fail (.failed ("no child " ++ name))
  | log tag formula => .change (write (tag ++ ":" ++ node.text)) (program write path node formula)
  | text => .value (.str node.text)
  | nothing => .value .void

def programs (write : String → σ → σ) (path : Node.Path) (node : Node ε κ) :
    List Formula → List (Program σ)
  | [] => []
  | formula :: rest => program write path node formula :: programs write path node rest

end
end Formula
end SentenceGrammar
