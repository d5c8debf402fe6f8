import ExactSimplex.Tableau.Basic

/-! Laying out a program in standard form as a tableau. The objective `z = e` becomes the
row of `z - e = 0` and each equality becomes its row of coefficients, so the solutions of
the rows are the points that satisfy the constraints, with the objective's value. -/

namespace ExactSimplex

inductive TableauError where
  | notStandardForm (index : Nat) (relation : Relation)
  deriving DecidableEq, Repr

def TableauError.message : TableauError → String
  | .notStandardForm index relation =>
    let symbol := relation.symbol
    s!"Program is not in standard form: constraint {index} uses '{symbol}'"

namespace Tableau

def objectiveRow (o : Objective) (names : List String) : List Rat :=
  1 :: (o.expression.dense names).map (-·) ++ [0]

def constraintRow (c : Constraint) (names : List String) : List Rat :=
  0 :: c.expression.dense names ++ [c.rhs]

/-- The layout of a program, whatever its relations are. -/
def layout (p : Program) : Tableau where
  direction := p.objective.direction
  columns := p.objective.goal :: p.variableNames ++ [rhsName]
  rows := objectiveRow p.objective p.variableNames ::
    p.constraints.map fun c => constraintRow c p.variableNames
  objective := p.objective

/-- The first constraint that is no equality, with its position. -/
def firstInequality? (p : Program) : Option (Nat × Relation) :=
  (p.constraints.zipIdx.find? fun c => c.1.relation != .equal).map fun c => (c.2, c.1.relation)

def ofProgram (p : Program) : Except TableauError Tableau :=
  match firstInequality? p with
  | some (index, relation) => .error (.notStandardForm index relation)
  | none => .ok (layout p)

@[simp] theorem layout_columns_length (p : Program) :
    (layout p).columns.length = p.variableNames.length + 2 := by simp [layout]

@[simp] theorem layout_rows_length (p : Program) :
    (layout p).rows.length = p.constraints.length + 1 := by simp [layout]

theorem layout_rectangular (p : Program) :
    ∀ row ∈ (layout p).rows, row.length = (layout p).columns.length := by
  intro row hrow
  simp only [layout, List.mem_cons, List.mem_map] at hrow
  rcases hrow with rfl | ⟨c, _, rfl⟩
  · simp [layout, objectiveRow, LinearForm.dense]
  · simp [layout, constraintRow, LinearForm.dense]

theorem firstInequality?_eq_none {p : Program} :
    firstInequality? p = none ↔ p.isStandard = true := by
  rw [firstInequality?, Option.map_eq_none_iff,
    find?_zipIdx_eq_none (f := fun c : Constraint => c.relation != .equal)]
  simp [Program.isStandard]

end Tableau

end ExactSimplex
