import ExactSimplex.Pivoting.Failure
import ExactSimplex.Solution.Basic
import ExactSimplex.Tableau.Basic

/-! Reading the solution off an optimal tableau. Each basic variable has the right-hand side
of its row and every other variable is zero; the objective is computed anew from these
values and has to agree with the right-hand side of row 0. -/

namespace ExactSimplex.Tableau

/-- The basic variable of each constraint row, or the failure of the first row without. -/
def basis (t : Tableau) : Except SimplexError (List String) :=
  t.constraintRows.mapM fun row =>
    match t.basicVariable? row with
    | some name => .ok name
    | none => .error (.noBasicVariable row)

/-- The value of a variable when the given ones are basic in their rows. -/
def basicValue (t : Tableau) (basis : List String) (name : String) : Except SimplexError Rat :=
  match basis.idxOf? name with
  | none => .ok 0
  | some i =>
    match t.rhs? (i + 1) with
    | some b => .ok b
    | none => .error (.missingColumn name)

/-- The values of the decision columns. -/
def basicValues (t : Tableau) (basis : List String) :
    Except SimplexError (List (String × Rat)) :=
  t.decisionColumns.mapM fun (name, _) => (t.basicValue basis name).map fun q => (name, q)

/-- The value that a list gives a variable, zero where it gives none. -/
def valueIn (values : List (String × Rat)) (name : String) : Rat := (values.lookup name).getD 0

def readSolution (t : Tableau) : Except SimplexError Solution := do
  let basis ← t.basis
  let values ← t.basicValues basis
  let computed := t.objective.expression.eval (valueIn values)
  let recorded := (t.rhs? 0).getD 0
  if computed = recorded then .ok ⟨t.objective.goal, computed, values, basis⟩
  else .error (.inconsistentObjective computed recorded)

end ExactSimplex.Tableau
