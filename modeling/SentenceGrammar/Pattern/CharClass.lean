/-!
# Character classes

A class is written between brackets as characters and ranges, such as `[a-zA-Z()]`. A `^` in front
excludes what follows, a backslash makes the next character an ordinary one, and a `-` that is not
between two characters stands for itself.
-/
namespace SentenceGrammar

/-- Why a text is no character class. -/
inductive ClassFault where
  | danglingBackslash
  | empty
  | outOfOrder (low high : Char)
  | trailingText
  deriving DecidableEq, Repr

def ClassFault.message : ClassFault → String
  | danglingBackslash => "dangling `\\` at end of character class"
  | empty => "character class is empty"
  | outOfOrder low high =>
    "range `" ++ low.toString ++ "-" ++ high.toString ++ "` is out of order"
  | trailingText => "unexpected text after `]`"

structure CharClass where
  negated : Bool
  /-- The closed ranges of the class; a single character is a range of its own. -/
  ranges : List (Char × Char)
  /-- What is written between the brackets. -/
  body : String
  deriving DecidableEq, Repr

namespace CharClass

/-- The characters of a class body, each with whether a backslash stands before it. -/
def unescape : List Char → Except ClassFault (List (Char × Bool))
  | [] => .ok []
  | '\\' :: [] => .error .danglingBackslash
  | '\\' :: c :: rest => do return (c, true) :: (← unescape rest)
  | c :: rest => do return (c, false) :: (← unescape rest)

/-- Group characters into ranges. An ordinary `-` joins the characters on its two sides. -/
def readRanges : List (Char × Bool) → Except ClassFault (List (Char × Char))
  | [] => .ok []
  | (low, _) :: ('-', false) :: (high, _) :: rest =>
    if high < low then .error (.outOfOrder low high)
    else do return (low, high) :: (← readRanges rest)
  | (c, _) :: rest => do return (c, c) :: (← readRanges rest)

/-- Read the text between the brackets. -/
def read (body : String) : Except ClassFault CharClass := do
  let chars ← unescape body.toList
  let (negated, listed) := match chars with
    | ('^', false) :: rest => (true, rest)
    | _ => (false, chars)
  if listed = [] then throw .empty
  return ⟨negated, ← readRanges listed, body⟩

def contains (set : CharClass) (c : Char) : Bool :=
  (set.ranges.any fun (low, high) => low ≤ c && c ≤ high) != set.negated

/-- The class as written, with its brackets. -/
def source (set : CharClass) : String := "[" ++ set.body ++ "]"

end CharClass
end SentenceGrammar
