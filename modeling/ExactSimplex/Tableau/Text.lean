import ExactSimplex.Rational.Basic
import ExactSimplex.Tableau.Basic
import ExactSimplex.Variable

/-! A tableau as a table. Columns are aligned to the right and the first one names the
basic variable of each row, with a dash where there is none. -/

namespace ExactSimplex

namespace Table

/-- The greater width of each column; the longer row decides how many there are. -/
def widen : List Nat → List Nat → List Nat
  | a :: as, b :: bs => max a b :: widen as bs
  | [], bs => bs
  | as, [] => as

/-- The width of each column, in characters. -/
def widths (grid : List (List String)) : List Nat :=
  grid.foldl (fun ws row => widen ws (row.map String.length)) []

/-- The text after so many blanks as it takes to fill the width. -/
def padLeft (width : Nat) (s : String) : String :=
  "".pushn ' ' (width - s.length) ++ s

def rowText (widths : List Nat) (row : List String) : String :=
  " | ".intercalate (row.zipWith (fun cell width => padLeft width cell) widths)

def text (grid : List (List String)) : String :=
  "\n".intercalate (grid.map (rowText (widths grid)))

end Table

namespace Tableau

def heading (t : Tableau) : List String := "basic" :: t.columns.map Variable.shown

def rowCells (t : Tableau) (i : Nat) (row : List Rat) : List String :=
  ((t.basicVariable? i).map Variable.shown).getD "-" :: row.map Rational.text

def text (t : Tableau) : String :=
  Table.text (t.heading :: t.rows.mapIdx t.rowCells)

end Tableau

end ExactSimplex
