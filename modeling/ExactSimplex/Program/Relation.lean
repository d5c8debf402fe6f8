import ExactSimplex.Text.Blank

/-! The words of a linear program: which way the objective goes, how a constraint compares
its two sides, and which signs a variable may take. Each has one spelling. -/

namespace ExactSimplex

inductive Direction where
  | max
  | min
  deriving DecidableEq, Repr

inductive Relation where
  | less
  | atMost
  | equal
  | atLeast
  | greater
  deriving DecidableEq, Repr

inductive Restriction where
  | nonNegative
  | unrestricted
  deriving DecidableEq, Repr

namespace Direction

def word : Direction → String
  | max => "max"
  | min => "min"

def all : List Direction := [max, min]

def opposite : Direction → Direction
  | max => min
  | min => max

end Direction

namespace Relation

def symbol : Relation → String
  | less => "<"
  | atMost => "<="
  | equal => "="
  | atLeast => ">="
  | greater => ">"

def all : List Relation := [less, atMost, equal, atLeast, greater]

def isStrict (r : Relation) : Bool := r == less || r == greater

/-- What the relation says of two numbers. -/
def Holds : Relation → Rat → Rat → Prop
  | less, a, b => a < b
  | atMost, a, b => a ≤ b
  | equal, a, b => a = b
  | atLeast, a, b => b ≤ a
  | greater, a, b => b < a

instance (r : Relation) (a b : Rat) : Decidable (r.Holds a b) := by
  cases r <;> simp only [Holds] <;> infer_instance

/-- The relation that a symbol between blanks names. -/
def read? (s : String) : Option Relation :=
  let symbol := Text.trimmed s
  all.find? fun r => r.symbol == symbol

theorem read?_symbol (r : Relation) : read? r.symbol = some r := by
  cases r <;> decide +kernel

end Relation

namespace Restriction

def keyword : Restriction → String
  | nonNegative => "non-negative"
  | unrestricted => "unrestricted"

def all : List Restriction := [nonNegative, unrestricted]

/-- The values that the restriction lets a variable take. -/
def Allows : Restriction → Rat → Prop
  | nonNegative, q => 0 ≤ q
  | unrestricted, _ => True

end Restriction

end ExactSimplex
