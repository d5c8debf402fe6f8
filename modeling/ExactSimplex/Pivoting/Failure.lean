import ExactSimplex.Rational.Basic

/-! What can go wrong on the way from a tableau to its solution. -/

namespace ExactSimplex

inductive SimplexError where
  | noBasicVariable (row : Nat)
  | infeasibleStart (row : Nat) (rhs : Rat)
  | missingColumn (name : String)
  | inconsistentObjective (computed recorded : Rat)
  | arithmetic (e : ArithmeticError)
  deriving DecidableEq

def SimplexError.message : SimplexError → String
  | .noBasicVariable row =>
    s!"Row {row} has no basic variable; a starting basis would need artificial variables"
  | .infeasibleStart row rhs =>
    let b := Rational.text rhs
    s!"Row {row} has negative right-hand side {b}, so the starting basis is infeasible"
  | .missingColumn name => s!"Tableau has no column '{name}'"
  | .inconsistentObjective computed recorded =>
    let c := Rational.text computed
    let r := Rational.text recorded
    s!"Objective value {c} disagrees with the tableau's {r}"
  | .arithmetic e => e.message

end ExactSimplex
