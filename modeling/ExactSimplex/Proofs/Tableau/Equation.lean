import Mathlib.Algebra.BigOperators.Ring.Finset
import Mathlib.Algebra.Field.Rat
import Mathlib.Tactic.Ring
import ExactSimplex.Tableau.Basic

/-! A tableau as a system of equations. A row says that its entries, weighted by the values
of the columns, add up to its right-hand side. Values are given to columns by position here,
so that sums run over positions; `solves_iff_solvedBy` says that this is the meaning that a
tableau has for lists of values. -/

namespace ExactSimplex.Tableau

/-- Every row has one cell for each column. -/
def Rectangular (t : Tableau) : Prop := ∀ row ∈ t.rows, row.length = t.columns.length

/-- The cell of a row and a column, zero where there is none. -/
def entry (t : Tableau) (i j : Nat) : Rat := (t.cell? i j).getD 0

def rhs (t : Tableau) (i : Nat) : Rat := t.entry i t.rhsColumn

/-- The left side of a row, with values for the columns. -/
def rowSum (t : Tableau) (i : Nat) (x : Nat → Rat) : Rat :=
  ∑ j ∈ Finset.range t.rhsColumn, t.entry i j * x j

/-- The values solve every row, that of the objective included. -/
def SolvedBy (t : Tableau) (x : Nat → Rat) : Prop :=
  ∀ i, i < t.rows.length → t.rowSum i x = t.rhs i

variable {t : Tableau} {i j k : Nat}

/-! ## Cells -/

theorem rhsColumn_lt (h : j < t.columns.length) : t.rhsColumn < t.columns.length := by
  unfold rhsColumn; omega

theorem lt_columns_length (h : j < t.rhsColumn) : j < t.columns.length := by
  unfold rhsColumn at h; omega

theorem cell?_eq_entry (ht : t.Rectangular) (hi : i < t.rows.length)
    (hj : j < t.columns.length) : t.cell? i j = some (t.entry i j) := by
  have hlen : j < t.rows[i].length := by rw [ht _ (List.getElem_mem hi)]; exact hj
  simp [entry, cell?, List.getElem?_eq_getElem hi, List.getElem?_eq_getElem hlen]

theorem rhs?_eq_rhs (ht : t.Rectangular) (hi : i < t.rows.length) (hn : 0 < t.columns.length) :
    t.rhs? i = some (t.rhs i) :=
  cell?_eq_entry ht hi (rhsColumn_lt hn)

/-- The entries of a rectangular tableau are its rows. -/
theorem rows_eq_of_entry_eq {u : Tableau} (ht : t.Rectangular) (hu : u.Rectangular)
    (hcols : u.columns.length = t.columns.length) (hrows : u.rows.length = t.rows.length)
    (h : ∀ i, i < t.rows.length → ∀ j, j < t.columns.length → u.entry i j = t.entry i j) :
    u.rows = t.rows := by
  refine List.ext_getElem hrows ?_
  intro i hi hi'
  have hut := hu _ (List.getElem_mem hi)
  have htt := ht _ (List.getElem_mem hi')
  refine List.ext_getElem (by omega) ?_
  intro j hj hj'
  have he := h i hi' j (by omega)
  simpa [entry, cell?, List.getElem?_eq_getElem hi, List.getElem?_eq_getElem hi',
    List.getElem?_eq_getElem hj, List.getElem?_eq_getElem hj'] using he

/-! ## The two forms of the equations -/

theorem dot_eq_sum (n : Nat) (cells values : List Rat) (hc : n ≤ cells.length)
    (hv : values.length = n) :
    dot cells values = ∑ j ∈ Finset.range n, (cells[j]?).getD 0 * (values[j]?).getD 0 := by
  induction n generalizing cells values with
  | zero => simp [List.eq_nil_of_length_eq_zero hv, dot]
  | succ n ih =>
    cases cells with
    | nil => simp at hc
    | cons c cells =>
      cases values with
      | nil => simp at hv
      | cons v values =>
        rw [Finset.sum_range_succ', dot, ih cells values (by simpa using hc) (by simpa using hv)]
        simp [add_comm]

theorem solves_iff_solvedBy (ht : t.Rectangular) {values : List Rat}
    (hv : values.length + 1 = t.columns.length) :
    t.Solves values ↔ t.SolvedBy fun j => (values[j]?).getD 0 := by
  have hcol : t.rhsColumn = values.length := by unfold rhsColumn; omega
  have hrow : ∀ (i : Nat) (hi : i < t.rows.length),
      some (dot t.rows[i] values) = t.rows[i][t.rhsColumn]? ↔
        (t.rowSum i fun j => (values[j]?).getD 0) = t.rhs i := by
    intro i hi
    have hlen := ht _ (List.getElem_mem hi)
    rw [dot_eq_sum values.length _ _ (by omega) rfl,
      List.getElem?_eq_getElem (by omega : t.rhsColumn < t.rows[i].length)]
    simp [rowSum, rhs, entry, cell?, List.getElem?_eq_getElem hi, hcol,
      List.getElem?_eq_getElem (by omega : values.length < t.rows[i].length)]
  constructor
  · intro h i hi
    exact (hrow i hi).mp (h _ (List.getElem_mem hi))
  · intro h row hmem
    obtain ⟨i, hi, rfl⟩ := List.getElem_of_mem hmem
    exact (hrow i hi).mpr (h i hi)

/-! ## Unit columns and basic columns -/

theorem entry_of_isUnitColumn (h : t.isUnitColumn i j = true) (hk : k < t.rows.length) :
    t.entry k j = if k = i then 1 else 0 := by
  simp [entry, isUnitColumn_iff.mp h k hk]

theorem isUnitColumn_of_entry (ht : t.Rectangular) (hj : j < t.columns.length)
    (h : ∀ k, k < t.rows.length → t.entry k j = if k = i then 1 else 0) :
    t.isUnitColumn i j = true := by
  refine isUnitColumn_iff.mpr ?_
  intro k hk
  rw [cell?_eq_entry ht hk hj, h k hk]

theorem basicColumn?_eq_some :
    t.basicColumn? i = some j ↔
      j < t.rhsColumn ∧ t.isUnitColumn i j = true ∧ ∀ k, k < j → t.isUnitColumn i k = false := by
  simp only [basicColumn?, List.find?_range_eq_some, List.mem_range, Bool.not_eq_true']
  constructor
  · rintro ⟨hu, hj, hfirst⟩; exact ⟨hj, hu, hfirst⟩
  · rintro ⟨hj, hu, hfirst⟩; exact ⟨hu, hj, hfirst⟩

/-- A unit column makes its row have a basic column. -/
theorem exists_basicColumn (hj : j < t.rhsColumn) (h : t.isUnitColumn i j = true) :
    ∃ k, t.basicColumn? i = some k :=
  Option.isSome_iff_exists.mp (List.find?_isSome.mpr ⟨j, List.mem_range.mpr hj, h⟩)

theorem entry_basicColumn (h : t.basicColumn? i = some j) (hk : k < t.rows.length) :
    t.entry k j = if k = i then 1 else 0 :=
  entry_of_isUnitColumn (basicColumn?_eq_some.mp h).2.1 hk

/-- A column is basic in one row only. -/
theorem basicColumn?_injective (hi : i < t.rows.length) (h : t.basicColumn? i = some j)
    (h' : t.basicColumn? k = some j) : i = k := by
  have h1 := entry_basicColumn h hi
  have h2 := entry_basicColumn h' hi
  by_contra hne
  rw [if_pos rfl] at h1
  rw [if_neg hne, h1] at h2
  exact one_ne_zero h2

theorem exists_basicColumn_of_isSome (h : (t.basicVariable? i).isSome = true) :
    ∃ j, t.basicColumn? i = some j := by
  cases hb : t.basicColumn? i with
  | none => simp [basicVariable?, hb] at h
  | some j => exact ⟨j, rfl⟩

end ExactSimplex.Tableau
