import ExactSimplex.Pivoting.Failure
import ExactSimplex.Tableau.Basic

/-! The starting basis. It is accepted as it stands: every row below the objective's must
have a basic variable and a right-hand side that is not negative. -/

namespace ExactSimplex.Tableau

/-- What keeps a row from being part of a feasible basis. -/
def rowFailure? (t : Tableau) (row : Nat) : Option SimplexError :=
  match t.basicVariable? row with
  | none => some (.noBasicVariable row)
  | some _ =>
    match t.rhs? row with
    | some b => if b < 0 then some (.infeasibleStart row b) else none
    | none => none

/-- The failure of the first row that has one. -/
def startFailure? (t : Tableau) : Option SimplexError := t.constraintRows.findSome? t.rowFailure?

/-- Every row gives a basic variable a value that is not negative. -/
def IsBasicFeasible (t : Tableau) : Prop := t.startFailure? = none

instance (t : Tableau) : Decidable t.IsBasicFeasible :=
  inferInstanceAs (Decidable (t.startFailure? = none))

theorem rowFailure?_eq_none {t : Tableau} {row : Nat} :
    t.rowFailure? row = none ↔
      (t.basicVariable? row).isSome = true ∧ ∀ b, t.rhs? row = some b → 0 ≤ b := by
  unfold rowFailure?
  cases t.basicVariable? row with
  | none => simp
  | some name =>
    cases t.rhs? row with
    | none => simp
    | some b =>
      by_cases hb : b < 0
      · have hn : ¬ 0 ≤ b := Rat.not_le.mpr hb
        simp only [if_pos hb, reduceCtorEq, Option.isSome_some, Option.some.injEq, true_and,
          forall_eq', hn]
      · simp [hb, Rat.not_lt.mp hb]

theorem isBasicFeasible_iff {t : Tableau} :
    t.IsBasicFeasible ↔ ∀ row, 1 ≤ row → row < t.rows.length →
      (t.basicVariable? row).isSome = true ∧ ∀ b, t.rhs? row = some b → 0 ≤ b := by
  simp only [IsBasicFeasible, startFailure?, List.findSome?_eq_none_iff, constraintRows,
    constraintCount, List.mem_range'_1, rowFailure?_eq_none]
  constructor
  · intro h row h1 h2; exact h row (by omega)
  · intro h row hr; exact h row hr.1 (by omega)

end ExactSimplex.Tableau
