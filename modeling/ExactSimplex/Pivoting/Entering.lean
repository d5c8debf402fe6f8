import ExactSimplex.Pivoting.Rule
import ExactSimplex.Tableau.Basic

/-! Choosing the entering variable among those whose reduced cost improves the objective.
There is one to choose exactly when the tableau is not optimal. -/

namespace ExactSimplex

/-- A tableau with its entering variable chosen. -/
structure Entering where
  tableau : Tableau
  name : String
  deriving DecidableEq

namespace Tableau

/-- The reduced costs that improve the objective, in column order. -/
def improvingCosts (t : Tableau) : List (String × Rat) :=
  t.reducedCosts.filter fun c => t.improves c.2

end Tableau

namespace PivotRule

/-- The later cost only if it is greater in absolute value. -/
def steeper (best next : String × Rat) : String × Rat :=
  if best.2.abs < next.2.abs then next else best

/-- The improving cost that the rule picks, with its variable. -/
def pickCost : PivotRule → List (String × Rat) → Option (String × Rat)
  | _, [] => none
  | .bland, c :: _ => some c
  | .dantzig, c :: cs => some (cs.foldl steeper c)

end PivotRule

/-- The entering variable that the rule picks, with its reduced cost. -/
def Tableau.entering? (t : Tableau) (rule : PivotRule) : Option (String × Rat) :=
  rule.pickCost t.improvingCosts

theorem PivotRule.pickCost_eq_none {rule : PivotRule} {cs : List (String × Rat)} :
    rule.pickCost cs = none ↔ cs = [] := by
  cases cs with
  | nil => simp [pickCost]
  | cons c cs => cases rule <;> simp [pickCost]

theorem Tableau.entering?_eq_none {t : Tableau} {rule : PivotRule} :
    t.entering? rule = none ↔ t.isOptimal = true := by
  simp [entering?, PivotRule.pickCost_eq_none, improvingCosts, isOptimal]

end ExactSimplex
