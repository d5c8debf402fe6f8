import Mathlib.Algebra.Order.Field.Rat
import Mathlib.Tactic.Linarith
import ExactSimplex.Tableau.Basic

/-! What it is to be a better value of the objective and a feasible point of a program in
standard form. A maximum is a minimum of the negated objective, so one sign for each
direction turns every statement about both into one. -/

namespace ExactSimplex

namespace Direction

/-- The first value of the objective is better than the second. -/
def Better : Direction → Rat → Rat → Prop
  | max, a, b => b < a
  | min, a, b => a < b

def sign : Direction → Rat
  | max => 1
  | min => -1

theorem better_iff {d : Direction} {a b : Rat} : d.Better a b ↔ d.sign * b < d.sign * a := by
  cases d <;> simp [Better, sign]

end Direction

theorem Tableau.improves_iff {t : Tableau} {cost : Rat} :
    t.improves cost = true ↔ t.direction.sign * cost < 0 := by
  cases hd : t.direction <;> simp [improves, hd, Direction.sign]

theorem Tableau.improves_eq_false_iff {t : Tableau} {cost : Rat} :
    t.improves cost = false ↔ 0 ≤ t.direction.sign * cost := by
  rw [← Bool.not_eq_true, improves_iff, not_lt]

/-- No declared variable is negative and all constraints hold. The restrictions play no
part: the simplex method treats every variable as non-negative. -/
structure Program.Feasible (p : Program) (v : String → Rat) : Prop where
  nonneg : ∀ name ∈ p.variableNames, 0 ≤ v name
  satisfied : p.Satisfied v

end ExactSimplex
