import ExactSimplex.Program.Basic

/-! Simplex tableaux. The columns are the objective's variable, the variables of the
program in declaration order and the right-hand side; row 0 is the objective's. A tableau
is plain data: rows may be short or long, and every question about a cell that is not
there has an answer. `Regular` says what a tableau laid out from a program is. -/

namespace ExactSimplex

structure Tableau where
  direction : Direction
  columns : List String
  rows : List (List Rat)
  /-- The objective of the program that was laid out. -/
  objective : Objective
  deriving DecidableEq

namespace Tableau

/-- The heading of the right-hand side. -/
def rhsName : String := "rhs"

/-! ## Columns and cells -/

/-- The position of the right-hand side, which is the last column. -/
def rhsColumn (t : Tableau) : Nat := t.columns.length - 1

def column? (t : Tableau) (name : String) : Option Nat := t.columns.idxOf? name

def cell? (t : Tableau) (row column : Nat) : Option Rat :=
  t.rows[row]?.bind fun cells => cells[column]?

def get? (t : Tableau) (row : Nat) (name : String) : Option Rat :=
  (t.column? name).bind (t.cell? row)

def rhs? (t : Tableau) (row : Nat) : Option Rat := t.cell? row t.rhsColumn

def constraintCount (t : Tableau) : Nat := t.rows.length - 1

/-- The rows below the objective's. -/
def constraintRows (t : Tableau) : List Nat := List.range' 1 t.constraintCount

/-- The columns between the first and the last, with their positions. -/
def decisionColumns (t : Tableau) : List (String × Nat) :=
  t.columns.zipIdx.filter fun c => c.2 != 0 && c.2 != t.rhsColumn

/-! ## Reduced costs -/

/-- The entries of row 0 under the decision columns. -/
def reducedCosts (t : Tableau) : List (String × Rat) :=
  match t.rows with
  | [] => []
  | costs :: _ => t.decisionColumns.filterMap fun (name, j) => costs[j]?.map fun q => (name, q)

/-- Raising a variable with this reduced cost improves the objective. -/
def improves (t : Tableau) (cost : Rat) : Bool :=
  match t.direction with
  | .max => cost < 0
  | .min => 0 < cost

/-- No variable improves the objective. -/
def isOptimal (t : Tableau) : Bool := t.reducedCosts.all fun c => !t.improves c.2

/-! ## Basic variables -/

/-- The column holds 1 in the given row and 0 in every other row. -/
def isUnitColumn (t : Tableau) (row column : Nat) : Bool :=
  t.rows.zipIdx.all fun (cells, i) =>
    match cells[column]? with
    | some q => if i = row then q == 1 else q == 0
    | none => false

/-- The first unit column of a row, the right-hand side not counted. -/
def basicColumn? (t : Tableau) (row : Nat) : Option Nat :=
  (List.range t.rhsColumn).find? (t.isUnitColumn row)

/-- The variable whose value the row gives. -/
def basicVariable? (t : Tableau) (row : Nat) : Option String :=
  (t.basicColumn? row).bind fun j => t.columns[j]?

def basicVariables (t : Tableau) : List (Option String) :=
  (List.range t.rows.length).map t.basicVariable?

/-! ## Meaning -/

/-- The sum that a row forms with values for its columns. -/
def dot : List Rat → List Rat → Rat
  | q :: qs, v :: vs => q * v + dot qs vs
  | _, _ => 0

/-- The values of all columns but the last solve every row as an equation. -/
def Solves (t : Tableau) (values : List Rat) : Prop :=
  ∀ row ∈ t.rows, some (dot row values) = row[t.rhsColumn]?

/-- Each row has a cell for each column, the names of the columns are distinct, and the
first column is the unit column of row 0. -/
structure Regular (t : Tableau) : Prop where
  rectangular : ∀ row ∈ t.rows, row.length = t.columns.length
  distinct : t.columns.Nodup
  objectiveColumn : t.isUnitColumn 0 0 = true

theorem isUnitColumn_iff {t : Tableau} {row column : Nat} :
    t.isUnitColumn row column = true ↔
      ∀ i, i < t.rows.length → t.cell? i column = some (if i = row then 1 else 0) := by
  simp only [isUnitColumn, List.all_eq_true, Prod.forall]
  constructor
  · intro h i hi
    have hc := h t.rows[i] i (List.mem_zipIdx_iff_getElem?.mpr (by simp [hi]))
    simp only [cell?, List.getElem?_eq_getElem hi, Option.bind_some]
    split at hc
    · rename_i q hq
      rw [hq]
      by_cases hr : i = row <;> simp_all
    · cases hc
  · intro h cells i hm
    have hg := List.mem_zipIdx_iff_getElem?.mp hm
    simp only at hg
    obtain ⟨hi, rfl⟩ := List.getElem?_eq_some_iff.mp hg
    have hc := h i hi
    simp only [cell?, hg, Option.bind_some] at hc
    rw [hc]
    by_cases hr : i = row <;> simp [hr]

end Tableau

end ExactSimplex
