import ExactSimplex.Rational.Basic

/-! A solution: the value of every variable of the standardized program, the basis that it
belongs to, and the value of the objective. -/

namespace ExactSimplex

structure Solution where
  /-- The objective's variable. -/
  goal : String
  objectiveValue : Rat
  /-- The value of each variable, in column order. -/
  values : List (String × Rat)
  /-- The basic variable of each row below the objective's. -/
  basis : List String
  deriving DecidableEq

namespace Solution

/-- The value of a variable; the objective's variable has the objective's value. -/
def value? (s : Solution) (name : String) : Option Rat :=
  if name = s.goal then some s.objectiveValue else s.values.lookup name

def isBasic (s : Solution) (name : String) : Bool := s.basis.contains name

def equationText (name : String) (q : Rat) : String := name ++ " = " ++ Rational.text q

/-- A line for each variable and one for the objective. -/
def text (s : Solution) : String :=
  "\n".intercalate
    (s.values.map (fun v => equationText v.1 v.2) ++ [equationText s.goal s.objectiveValue])

end Solution

end ExactSimplex
