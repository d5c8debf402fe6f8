import ExactSimplex.Pivoting.Failure
import ExactSimplex.Standard.Form
import ExactSimplex.Tableau.Layout
import ExactSimplex.Trace.Kind

/-! What can end a run without reaching its target. -/

namespace ExactSimplex

inductive ChainError where
  | noPathFound (start goal : StateKind)
  | iterationLimitExceeded (limit : Nat)
  | stateMismatch (expected found : StateKind)
  | standardize (e : StandardizeError)
  | tableau (e : TableauError)
  | simplex (e : SimplexError)
  deriving DecidableEq

def ChainError.message : ChainError → String
  | .noPathFound start goal =>
    let a := start.name
    let b := goal.name
    s!"No conversion path from {a} to {b}"
  | .iterationLimitExceeded limit => s!"Target not reached within {limit} steps"
  | .stateMismatch expected found =>
    let a := expected.name
    let b := found.name
    s!"Conversion expects a {a} state, got {b}"
  | .standardize e => e.message
  | .tableau e => e.message
  | .simplex e => e.message

end ExactSimplex
