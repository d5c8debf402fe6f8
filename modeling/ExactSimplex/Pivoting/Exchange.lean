import ExactSimplex.Pivoting.Failure
import ExactSimplex.Pivoting.Leaving
import ExactSimplex.Pivoting.RowOperation

/-! The pivot: the entering variable takes the place of the leaving one in the basis. The
row is divided by the pivot cell and a multiple of it is added to every other row with
an entry in the entering column, which thereby becomes a unit column. -/

namespace ExactSimplex

/-- A pivoted tableau with the record of how it was reached. -/
structure Pivoted where
  tableau : Tableau
  /-- The tableau in which only the pivot row was scaled. -/
  scaled : Tableau
  operations : List RowOperation
  deriving DecidableEq

namespace Tableau

/-- The rows with one of them multiplied by a factor. -/
def scaleRow (rows : List (List Rat)) (row : Nat) (factor : Rat) : List (List Rat) :=
  rows.modify row fun cells => cells.map (· * factor)

/-- The multiple of the pivot row that clears a row's entry in the column. -/
def clearing (cells : List Rat) (column : Nat) : Rat := -(cells[column]?.getD 0)

/-- Clear the column in every row but the pivot row. -/
def clearColumn (rows : List (List Rat)) (row column : Nat) (pivotRow : List Rat) :
    List (List Rat) :=
  rows.mapIdx fun i cells =>
    if i = row ∨ clearing cells column = 0 then cells
    else RowOperation.addRow (clearing cells column) cells pivotRow

/-- The additions that clearing the column consists of, in the order of the rows. -/
def clearingOperations (rows : List (List Rat)) (row column : Nat) : List RowOperation :=
  rows.zipIdx.filterMap fun (cells, i) =>
    if i = row ∨ clearing cells column = 0 then none
    else some (.addMultiple i (clearing cells column) row)

/-- Make the column the unit column of the row, by the factor that makes its cell 1. -/
def pivotBy (t : Tableau) (row column : Nat) (factor : Rat) : Pivoted :=
  let scaledRows := scaleRow t.rows row factor
  let pivotRow := scaledRows[row]?.getD []
  { tableau := { t with rows := clearColumn scaledRows row column pivotRow }
    scaled := { t with rows := scaledRows }
    operations := .scale row factor :: clearingOperations scaledRows row column }

end Tableau

/-- Exchange the entering for the leaving variable. -/
def Leaving.pivot (l : Leaving) : Except SimplexError Pivoted :=
  match l.tableau.column? l.entering with
  | none => .error (.missingColumn l.entering)
  | some column =>
    match l.tableau.cell? l.row column with
    | none => .error (.missingColumn l.entering)
    | some cell =>
      match Rational.reciprocal cell with
      | .error e => .error (.arithmetic e)
      | .ok factor => .ok (l.tableau.pivotBy l.row column factor)

namespace Tableau

theorem pivotBy_rows_length (t : Tableau) (row column : Nat) (factor : Rat) :
    (t.pivotBy row column factor).tableau.rows.length = t.rows.length := by
  simp [pivotBy, clearColumn, scaleRow]

end Tableau

theorem Leaving.pivot_eq_ok {l : Leaving} {column : Nat} {cell : Rat}
    (hcol : l.tableau.column? l.entering = some column)
    (hcell : l.tableau.cell? l.row column = some cell) (hne : cell ≠ 0) :
    l.pivot = .ok (l.tableau.pivotBy l.row column cell⁻¹) := by
  simp [pivot, hcol, hcell, Rational.reciprocal_ok hne]

theorem Leaving.pivot_zero {l : Leaving} {column : Nat}
    (hcol : l.tableau.column? l.entering = some column)
    (hcell : l.tableau.cell? l.row column = some 0) :
    l.pivot = .error (.arithmetic .divisionByZero) := by
  simp [pivot, hcol, hcell, Rational.reciprocal]

end ExactSimplex
