import ExactSimplex.Rational.Basic

/-! The elementary row operations of a pivot, what they do to rows, and their text. -/

namespace ExactSimplex

inductive RowOperation where
  | scale (row : Nat) (factor : Rat)
  | addMultiple (row : Nat) (factor : Rat) (source : Nat)
  deriving DecidableEq

namespace RowOperation

def text : RowOperation → String
  | scale row factor =>
    let q := Rational.text factor
    s!"R{row} <- ({q}) * R{row}"
  | addMultiple row factor source =>
    let q := Rational.text factor
    s!"R{row} <- R{row} + ({q}) * R{source}"

/-- The row with a multiple of another added to it; cells that the other row lacks stay. -/
def addRow (factor : Rat) : List Rat → List Rat → List Rat
  | a :: as, b :: bs => (a + factor * b) :: addRow factor as bs
  | as, [] => as
  | [], _ :: _ => []

/-- What the operation does to a list of rows. -/
def apply (op : RowOperation) (rows : List (List Rat)) : List (List Rat) :=
  match op with
  | scale row factor => rows.modify row fun cells => cells.map (· * factor)
  | addMultiple row factor source =>
    rows.modify row fun cells => addRow factor cells ((rows[source]?).getD [])

@[simp] theorem addRow_length (factor : Rat) (as bs : List Rat) :
    (addRow factor as bs).length = as.length := by
  induction as generalizing bs with
  | nil => cases bs <;> simp [addRow]
  | cons a as ih => cases bs <;> simp [addRow, ih]

theorem addRow_getElem? {factor : Rat} {as bs : List Rat} (h : as.length = bs.length) (j : Nat) :
    (addRow factor as bs)[j]? = as[j]?.bind fun a => bs[j]?.map fun b => a + factor * b := by
  induction as generalizing bs j with
  | nil => cases bs <;> simp_all [addRow]
  | cons a as ih =>
    cases bs with
    | nil => simp at h
    | cons b bs =>
      cases j with
      | zero => simp [addRow]
      | succ j => simpa [addRow] using ih (by simpa using h) j

end RowOperation

end ExactSimplex
