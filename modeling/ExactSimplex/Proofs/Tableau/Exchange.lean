import Mathlib.Data.List.Find
import Mathlib.Tactic.Linarith
import ExactSimplex.Pivoting.Exchange
import ExactSimplex.Proofs.Tableau.Basis

/-! What a pivot does. Its entries have a closed form, and it keeps the solutions of the rows
and the unit columns of all rows but the pivot row, where the entering column becomes one. -/

namespace ExactSimplex.Tableau

/-- The tableau after the pivot on the cell of row `r` in column `q`. -/
def exchange (t : Tableau) (r q : Nat) : Tableau := (t.pivotBy r q (t.entry r q)⁻¹).tableau

variable {t : Tableau} {i j k r q : Nat}

/-! ## The entries -/

theorem scaleRow_getElem? {rows : List (List Rat)} {f : Rat} :
    (scaleRow rows r f)[i]? =
      rows[i]?.map fun cells => if i = r then cells.map (· * f) else cells := by
  rw [scaleRow, List.getElem?_modify]
  congr 1
  funext cells
  by_cases h : i = r
  · simp [h]
  · simp [h, Ne.symm h]

theorem entry_scaleRow {f : Rat} (u : Tableau) (hu : u.rows = scaleRow t.rows r f) :
    u.entry i j = if i = r then t.entry i j * f else t.entry i j := by
  simp only [entry, cell?, hu, scaleRow_getElem?]
  cases t.rows[i]? with
  | none => simp
  | some cells =>
    by_cases h : i = r
    · cases hc : cells[j]? <;> simp [h, hc]
    · simp [h]

theorem scaleRow_rectangular {f : Rat} (ht : t.Rectangular) {cells : List Rat}
    (h : (scaleRow t.rows r f)[i]? = some cells) : cells.length = t.columns.length := by
  rw [scaleRow_getElem?, Option.map_eq_some_iff] at h
  obtain ⟨old, hold, rfl⟩ := h
  have := ht old (List.mem_of_getElem? hold)
  by_cases hr : i = r <;> simp [hr, this]

/-- Clearing is by the entry itself, so nothing is lost where the entry is zero. -/
theorem addRow_clearing_getD {cells pivotRow : List Rat} (h : cells.length = pivotRow.length)
    (hj : j < cells.length) :
    (if clearing cells q = 0 then cells
      else RowOperation.addRow (clearing cells q) cells pivotRow)[j]?.getD 0 =
      (cells[j]?).getD 0 - (cells[q]?).getD 0 * (pivotRow[j]?).getD 0 := by
  have hc : (cells[q]?).getD 0 = -clearing cells q := by simp [clearing]
  by_cases hz : clearing cells q = 0
  · simp [hz, hc]
  · rw [if_neg hz, RowOperation.addRow_getElem? h, hc,
      List.getElem?_eq_getElem hj, List.getElem?_eq_getElem (h ▸ hj)]
    simp only [Option.bind_some, Option.map_some, Option.getD_some]
    ring

theorem entry_pivotBy (ht : t.Rectangular) {f : Rat} (hr : r < t.rows.length)
    (hi : i < t.rows.length) (hj : j < t.columns.length) :
    (t.pivotBy r q f).tableau.entry i j =
      if i = r then t.entry r j * f else t.entry i j - t.entry i q * (t.entry r j * f) := by
  let s : Tableau := { t with rows := scaleRow t.rows r f }
  have hs : ∀ i j, s.entry i j = if i = r then t.entry i j * f else t.entry i j :=
    fun i j => entry_scaleRow s rfl
  have hrow : ∀ i, i < t.rows.length → ∃ cells, (scaleRow t.rows r f)[i]? = some cells := by
    intro i hi
    rw [scaleRow_getElem?, List.getElem?_eq_getElem hi]
    exact ⟨_, rfl⟩
  obtain ⟨cells, hcells⟩ := hrow i hi
  obtain ⟨pivotRow, hpivot⟩ := hrow r hr
  have hlen := scaleRow_rectangular ht hcells
  have hplen := scaleRow_rectangular ht hpivot
  have hscells : ∀ j, s.entry i j = (cells[j]?).getD 0 := by
    intro j
    simp [s, entry, cell?, hcells]
  have hspivot : s.entry r j = (pivotRow[j]?).getD 0 := by simp [s, entry, cell?, hpivot]
  have hnew : (t.pivotBy r q f).tableau.entry i j =
      (if i = r ∨ clearing cells q = 0 then cells
        else RowOperation.addRow (clearing cells q) cells pivotRow)[j]?.getD 0 := by
    simp [entry, cell?, pivotBy, clearColumn, List.getElem?_mapIdx, hcells, hpivot]
  rw [hnew]
  by_cases h : i = r
  · have := hscells j
    rw [hs, if_pos h] at this
    simp only [h, true_or, if_true, ← this]
  · have hadd := addRow_clearing_getD (q := q) (hlen.trans hplen.symm) (by omega : j < cells.length)
    simp only [h, false_or, if_false]
    rw [hadd, ← hscells, ← hscells, ← hspivot, hs, hs, hs, if_neg h, if_neg h, if_pos rfl]

theorem entry_exchange (ht : t.Rectangular) (hr : r < t.rows.length)
    (hi : i < t.rows.length) (hj : j < t.columns.length) :
    (t.exchange r q).entry i j =
      if i = r then t.entry r j * (t.entry r q)⁻¹
      else t.entry i j - t.entry i q * (t.entry r j * (t.entry r q)⁻¹) :=
  entry_pivotBy ht hr hi hj

@[simp] theorem exchange_columns : (t.exchange r q).columns = t.columns := rfl
@[simp] theorem exchange_direction : (t.exchange r q).direction = t.direction := rfl
@[simp] theorem exchange_rhsColumn : (t.exchange r q).rhsColumn = t.rhsColumn := rfl

@[simp] theorem exchange_rows_length : (t.exchange r q).rows.length = t.rows.length :=
  pivotBy_rows_length t r q _

theorem exchange_rectangular (ht : t.Rectangular) :
    (t.exchange r q).Rectangular := by
  intro row hrow
  obtain ⟨i, hi, rfl⟩ := List.getElem_of_mem hrow
  obtain ⟨cells, hcells⟩ : ∃ cells, (scaleRow t.rows r (t.entry r q)⁻¹)[i]? = some cells := by
    rw [scaleRow_getElem?, List.getElem?_eq_getElem (by simpa using hi)]
    exact ⟨_, rfl⟩
  have hlen := scaleRow_rectangular ht hcells
  have hget : (t.exchange r q).rows[i]? = some (if i = r ∨ clearing cells q = 0 then cells
      else RowOperation.addRow (clearing cells q) cells
        ((scaleRow t.rows r (t.entry r q)⁻¹)[r]?.getD [])) := by
    simp [exchange, pivotBy, clearColumn, List.getElem?_mapIdx, hcells]
  rw [List.getElem?_eq_getElem hi, Option.some.injEq] at hget
  rw [hget]
  split <;> simp [hlen]

/-! ## The solutions -/

theorem rowSum_exchange (ht : t.Rectangular) (hr : r < t.rows.length)
    (hi : i < t.rows.length) (x : Nat → Rat) :
    (t.exchange r q).rowSum i x =
      if i = r then t.rowSum r x * (t.entry r q)⁻¹
      else t.rowSum i x - t.entry i q * (t.rowSum r x * (t.entry r q)⁻¹) := by
  have hcell : ∀ j ∈ Finset.range t.rhsColumn, (t.exchange r q).entry i j * x j =
      if i = r then t.entry r j * x j * (t.entry r q)⁻¹
      else t.entry i j * x j - t.entry i q * (t.entry r j * x j * (t.entry r q)⁻¹) := by
    intro j hj
    rw [entry_exchange ht hr hi (lt_columns_length (Finset.mem_range.mp hj))]
    split <;> ring
  simp only [rowSum, exchange_rhsColumn]
  rw [Finset.sum_congr rfl hcell]
  by_cases h : i = r
  · simp only [if_pos h, Finset.sum_mul]
  · simp only [if_neg h, Finset.sum_sub_distrib, Finset.sum_mul, Finset.mul_sum]

theorem rhs_exchange (ht : t.Rectangular) (hr : r < t.rows.length) (hi : i < t.rows.length)
    (hq : q < t.columns.length) :
    (t.exchange r q).rhs i =
      if i = r then t.rhs r * (t.entry r q)⁻¹
      else t.rhs i - t.entry i q * (t.rhs r * (t.entry r q)⁻¹) :=
  entry_exchange ht hr hi (rhsColumn_lt hq)

theorem exchange_solvedBy (ht : t.Rectangular) (hr : r < t.rows.length)
    (hq : q < t.columns.length) (hne : t.entry r q ≠ 0) (x : Nat → Rat) :
    (t.exchange r q).SolvedBy x ↔ t.SolvedBy x := by
  have hinv : (t.entry r q)⁻¹ ≠ 0 := inv_ne_zero hne
  constructor
  · intro h
    have hrow : t.rowSum r x = t.rhs r := by
      have := h r (by simpa using hr)
      rw [rowSum_exchange ht hr hr, rhs_exchange ht hr hr hq, if_pos rfl, if_pos rfl] at this
      exact mul_right_cancel₀ hinv this
    intro i hi
    by_cases hir : i = r
    · rw [hir, hrow]
    · have := h i (by simpa using hi)
      rw [rowSum_exchange ht hr hi, rhs_exchange ht hr hi hq, if_neg hir, if_neg hir, hrow]
        at this
      linarith
  · intro h i hi
    have hi : i < t.rows.length := by simpa using hi
    rw [rowSum_exchange ht hr hi, rhs_exchange ht hr hi hq, h i hi, h r hr]

/-! ## The unit columns -/

/-- The entering column becomes the unit column of the pivot row. -/
theorem exchange_isUnitColumn_entering (ht : t.Rectangular) (hr : r < t.rows.length)
    (hq : q < t.columns.length) (hne : t.entry r q ≠ 0) :
    (t.exchange r q).isUnitColumn r q = true := by
  refine isUnitColumn_of_entry (exchange_rectangular ht) (by simpa using hq) ?_
  intro k hk
  rw [entry_exchange ht hr (by simpa using hk) hq, mul_inv_cancel₀ hne]
  split
  · rfl
  · ring

/-- Another row has the same unit columns before and after. -/
theorem exchange_isUnitColumn (ht : t.Rectangular) (hr : r < t.rows.length)
    (hj : j < t.columns.length) (hne : t.entry r q ≠ 0) (hi : i ≠ r) :
    (t.exchange r q).isUnitColumn i j = t.isUnitColumn i j := by
  have hinv : (t.entry r q)⁻¹ ≠ 0 := inv_ne_zero hne
  have hu := exchange_rectangular (r := r) (q := q) ht
  rw [Bool.eq_iff_iff]
  constructor
  · intro h
    have hz : t.entry r j = 0 := by
      have := entry_of_isUnitColumn h (k := r) (by simpa using hr)
      rw [entry_exchange ht hr hr hj, if_pos rfl, if_neg hi.symm] at this
      exact (mul_eq_zero.mp this).resolve_right hinv
    refine isUnitColumn_of_entry ht hj ?_
    intro k hk
    have := entry_of_isUnitColumn h (k := k) (by simpa using hk)
    rw [entry_exchange ht hr hk hj, hz] at this
    by_cases hkr : k = r
    · rw [hkr, hz, if_neg hi.symm]
    · simpa [hkr] using this
  · intro h
    have hz : t.entry r j = 0 := by rw [entry_of_isUnitColumn h hr, if_neg hi.symm]
    refine isUnitColumn_of_entry hu (by simpa using hj) ?_
    intro k hk
    have hk : k < t.rows.length := by simpa using hk
    rw [entry_exchange ht hr hk hj, hz]
    by_cases hkr : k = r
    · rw [if_pos hkr, zero_mul, if_neg (by rw [hkr]; exact hi.symm)]
    · rw [if_neg hkr, entry_of_isUnitColumn h hk]
      ring

/-- A unit column of the pivot row afterwards was a copy of the entering column. -/
theorem entry_eq_of_exchange_isUnitColumn (ht : t.Rectangular) (hr : r < t.rows.length)
    (hj : j < t.columns.length) (hne : t.entry r q ≠ 0)
    (h : (t.exchange r q).isUnitColumn r j = true) (hk : k < t.rows.length) :
    t.entry k j = t.entry k q := by
  have hrow : t.entry r j * (t.entry r q)⁻¹ = 1 := by
    have := entry_of_isUnitColumn h (k := r) (by simpa using hr)
    rwa [entry_exchange ht hr hr hj, if_pos rfl, if_pos rfl] at this
  by_cases hkr : k = r
  · rw [hkr]
    exact (mul_inv_eq_one₀ hne).mp hrow
  · have := entry_of_isUnitColumn h (k := k) (by simpa using hk)
    rw [entry_exchange ht hr hk hj, hrow, if_neg hkr, if_neg hkr] at this
    linarith

theorem exchange_basicColumn?_of_ne (ht : t.Rectangular) (hr : r < t.rows.length)
    (hne : t.entry r q ≠ 0) (hi : i ≠ r) :
    (t.exchange r q).basicColumn? i = t.basicColumn? i := by
  refine List.find?_congr ?_
  intro j hj
  exact exchange_isUnitColumn ht hr (lt_columns_length (List.mem_range.mp hj)) hne hi

/-- If no earlier column is a copy of the entering one, it becomes basic in the pivot row. -/
theorem exchange_basicColumn?_self (ht : t.Rectangular) (hr : r < t.rows.length)
    (hq : q < t.rhsColumn) (hne : t.entry r q ≠ 0)
    (hfirst : ∀ j, j < q → ∃ k, k < t.rows.length ∧ t.entry k j ≠ t.entry k q) :
    (t.exchange r q).basicColumn? r = some q := by
  have hqc := lt_columns_length hq
  refine basicColumn?_eq_some.mpr
    ⟨hq, exchange_isUnitColumn_entering ht hr hqc hne, fun j hj => ?_⟩
  refine Bool.eq_false_iff.mpr ?_
  intro h
  obtain ⟨k, hk, hdiff⟩ := hfirst j hj
  exact hdiff (entry_eq_of_exchange_isUnitColumn ht hr (by omega) hne h hk)

end ExactSimplex.Tableau
