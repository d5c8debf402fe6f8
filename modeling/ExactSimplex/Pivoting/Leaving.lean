import ExactSimplex.Pivoting.Entering
import ExactSimplex.Pivoting.Failure
import ExactSimplex.Pivoting.Ratio

/-! The min-ratio test and the leaving variable. A row below the objective's binds where
its entry in the entering column is positive; the least ratio over all rows says how far
the entering variable can rise, and without any limit the problem is unbounded. -/

namespace ExactSimplex

/-- A tableau with both pivot variables chosen. -/
structure Leaving where
  tableau : Tableau
  entering : String
  leaving : String
  row : Nat
  /-- The outcome of the min-ratio test for every row, that of the objective included. -/
  ratios : List Ratio
  deriving DecidableEq

namespace Tableau

/-- The ratio of a row whose entry and right-hand side are given. -/
def rowRatio (row : Nat) (entry rhs : Rat) : Ratio :=
  if 0 < row ∧ 0 < entry then .finite (rhs / entry) else .infinite

/-- The ratio of every row for one column, unless a row lacks a cell that it needs. -/
def ratios? (t : Tableau) (column : Nat) : Option (List Ratio) :=
  t.rows.zipIdx.mapM fun (cells, i) =>
    match cells[column]?, cells[t.rhsColumn]? with
    | some entry, some rhs => some (rowRatio i entry rhs)
    | _, _ => none

def ratioTest (t : Tableau) (entering : String) : Except SimplexError (List Ratio) :=
  match (t.column? entering).bind t.ratios? with
  | some ratios => .ok ratios
  | none => .error (.missingColumn entering)

/-- The column of the variable that is basic in a row, if the row has one. -/
def basicRank? (t : Tableau) (row : Nat) : Option Nat := (t.basicVariable? row).bind t.column?

/-- The first rank comes before the second; no rank comes last. -/
def rankBefore : Option Nat → Option Nat → Bool
  | some i, some j => i < j
  | some _, none => true
  | none, _ => false

/-- The rows whose ratio is the given one. -/
def tiedRows (ratios : List Ratio) (least : Ratio) : List Nat :=
  (ratios.zipIdx.filter fun r => r.1 == least).map (·.2)

/-- The row that the rule picks among tied ones. -/
def pickRow? (t : Tableau) (rule : PivotRule) : List Nat → Option Nat
  | [] => none
  | i :: is =>
    match rule with
    | .dantzig => some i
    | .bland => some (is.foldl (fun best j =>
        if rankBefore (t.basicRank? j) (t.basicRank? best) then j else best) i)

end Tableau

/-- What the min-ratio test decides: nothing limits the entering variable, or the basic
variable of a row leaves. -/
inductive LeavingChoice where
  | unbounded
  | leaves (row : Nat) (variableName : String) (ratio : Ratio)
  deriving DecidableEq

namespace Tableau

/-- The choice of the leaving variable, from the ratios of all rows. -/
def chooseLeaving (t : Tableau) (rule : PivotRule) (ratios : List Ratio) :
    Except SimplexError LeavingChoice :=
  let least := Ratio.minimum ratios
  if least = .infinite then .ok .unbounded
  else
    match t.pickRow? rule (tiedRows ratios least) with
    | none => .error (.noBasicVariable 0)
    | some row =>
      match t.basicVariable? row with
      | none => .error (.noBasicVariable row)
      | some name => .ok (.leaves row name least)

theorem mem_tiedRows {ratios : List Ratio} {least : Ratio} {i : Nat} :
    i ∈ tiedRows ratios least ↔ ratios[i]? = some least := by
  simp only [tiedRows, List.mem_map, List.mem_filter, beq_iff_eq, Prod.exists]
  constructor
  · rintro ⟨r, j, ⟨hm, rfl⟩, rfl⟩
    exact List.mem_zipIdx_iff_getElem?.mp hm
  · intro h
    exact ⟨least, i, ⟨List.mem_zipIdx_iff_getElem?.mpr h, rfl⟩, rfl⟩

/-- The least of finitely many limits is the limit of some row. -/
theorem tiedRows_ne_nil {ratios : List Ratio} (h : Ratio.minimum ratios ≠ .infinite) :
    tiedRows ratios (Ratio.minimum ratios) ≠ [] := by
  obtain ⟨i, hi, he⟩ := List.getElem_of_mem (Ratio.minimum_mem h)
  exact List.ne_nil_of_mem (mem_tiedRows.mpr (List.getElem?_eq_some_iff.mpr ⟨hi, he⟩))

end Tableau

end ExactSimplex
