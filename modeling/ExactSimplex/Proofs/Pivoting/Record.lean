import ExactSimplex.Explained.Pivoting
import ExactSimplex.Proofs.Tableau.Exchange

/-! The record of a pivot. Its operations can be replayed: carried out one after another on the
whole tableau they lead over the scaled tableau to the pivoted one, because an addition changes
its own row only and no addition changes the pivot row that they all read. What they lead to is
the same system of equations with another unit column. -/

namespace ExactSimplex

namespace Tableau

/-- The tableau with one operation carried out on its rows. -/
def operate (t : Tableau) (op : RowOperation) : Tableau := { t with rows := op.apply t.rows }

/-- The addition that clears the column in one row, if there is something to clear. -/
def clearing? (r q : Nat) (row : List Rat × Nat) : Option RowOperation :=
  if row.2 = r ∨ clearing row.1 q = 0 then none
  else some (.addMultiple row.2 (clearing row.1 q) r)

/-- The rows on the way to a cleared column, those before `n` being done. -/
def clearedTo (n : Nat) (rows : List (List Rat)) (r q : Nat) (pivotRow : List Rat) :
    List (List Rat) :=
  rows.mapIdx fun i cells =>
    if n ≤ i ∨ i = r ∨ clearing cells q = 0 then cells
    else RowOperation.addRow (clearing cells q) cells pivotRow

/-- A pivot on the cell of row `r` in column `q`: what it recorded and what it kept. -/
structure ExchangedBy (t : Tableau) (r q : Nat) (p : Pivoted) : Prop where
  /-- The first operation makes the scaled tableau. -/
  scaled : ∃ first rest, p.operations = first :: rest ∧ t.operate first = p.scaled
  /-- All operations, in their order, make the pivoted tableau. -/
  replayed : p.operations.foldl operate t = p.tableau
  solutions : ∀ values, values.length + 1 = t.columns.length →
    (p.tableau.Solves values ↔ t.Solves values)
  entering : ∀ i, i < t.rows.length → p.tableau.cell? i q = some (if i = r then 1 else 0)
  /-- The unit columns of other rows stay as they are. -/
  others : ∀ i j, i ≠ r → t.isUnitColumn i j = true → ∀ k, p.tableau.cell? k j = t.cell? k j
  direction : p.tableau.direction = t.direction
  columns : p.tableau.columns = t.columns
  objective : p.tableau.objective = t.objective

variable {t : Tableau} {rows : List (List Rat)} {pivotRow cells : List Rat} {i j k n r q : Nat}

/-! ## Replaying the additions -/

theorem clearingOperations_eq :
    clearingOperations rows r q = rows.zipIdx.filterMap (clearing? r q) := rfl

theorem clearedTo_zero : clearedTo 0 rows r q pivotRow = rows :=
  List.ext_getElem (by simp [clearedTo]) (by simp [clearedTo])

theorem clearedTo_length :
    clearedTo rows.length rows r q pivotRow = clearColumn rows r q pivotRow := by
  refine List.ext_getElem (by simp [clearedTo, clearColumn]) ?_
  intro i hi _
  have hi : ¬ rows.length ≤ i := by simpa [clearedTo] using hi
  simp [clearedTo, clearColumn, hi]

theorem clearedTo_getElem?_of_le (h : n ≤ i) :
    (clearedTo n rows r q pivotRow)[i]? = rows[i]? := by
  cases hrow : rows[i]? <;> simp [clearedTo, List.getElem?_mapIdx, hrow, h]

theorem clearedTo_getElem?_of_lt (h : i < n) : (clearedTo n rows r q pivotRow)[i]? =
    rows[i]?.map fun cells => if i = r ∨ clearing cells q = 0 then cells
      else RowOperation.addRow (clearing cells q) cells pivotRow := by
  simp only [clearedTo, List.getElem?_mapIdx, Nat.not_le.mpr h, false_or]

theorem clearedTo_getElem?_pivot : (clearedTo n rows r q pivotRow)[r]? = rows[r]? := by
  cases hrow : rows[r]? <;> simp [clearedTo, List.getElem?_mapIdx, hrow]

/-- Going on by one row changes that row only. -/
theorem clearedTo_succ_getElem?_of_ne (h : i ≠ n) :
    (clearedTo (n + 1) rows r q pivotRow)[i]? = (clearedTo n rows r q pivotRow)[i]? := by
  have hle : n + 1 ≤ i ↔ n ≤ i := by omega
  simp only [clearedTo, List.getElem?_mapIdx, hle]

/-- One step of the replay: the row's own addition, or nothing where there is nothing to clear. -/
theorem clearedTo_succ (hn : rows[n]? = some cells) (hpivot : rows[r]?.getD [] = pivotRow) :
    (clearing? r q (cells, n)).toList.foldl (fun rows op => op.apply rows)
      (clearedTo n rows r q pivotRow) = clearedTo (n + 1) rows r q pivotRow := by
  have hdone : (clearedTo (n + 1) rows r q pivotRow)[n]? =
      some (if n = r ∨ clearing cells q = 0 then cells
        else RowOperation.addRow (clearing cells q) cells pivotRow) := by
    rw [clearedTo_getElem?_of_lt n.lt_add_one, hn, Option.map_some]
  refine List.ext_getElem? fun i => ?_
  by_cases hskip : n = r ∨ clearing cells q = 0
  · simp only [clearing?, if_pos hskip, Option.toList_none, List.foldl_nil]
    by_cases hi : i = n
    · rw [hi, clearedTo_getElem?_of_le (le_refl n), hdone, hn, if_pos hskip]
    · rw [clearedTo_succ_getElem?_of_ne hi]
  · simp only [clearing?, if_neg hskip, Option.toList_some, List.foldl_cons, List.foldl_nil,
      RowOperation.apply, clearedTo_getElem?_pivot, hpivot, List.getElem?_modify]
    by_cases hi : i = n
    · rw [hi, clearedTo_getElem?_of_le (le_refl n), hdone, hn, if_neg hskip]
      simp
    · rw [clearedTo_succ_getElem?_of_ne hi]
      simp [Ne.symm hi]

theorem foldl_clearingOperations (rows : List (List Rat)) (r q : Nat) :
    (clearingOperations rows r q).foldl (fun rows op => op.apply rows) rows =
      clearColumn rows r q (rows[r]?.getD []) := by
  -- by induction on how many rows have been gone through
  have hsome : ∀ n, n ≤ rows.length →
      ((rows.zipIdx.take n).filterMap (clearing? r q)).foldl (fun rows op => op.apply rows) rows =
        clearedTo n rows r q (rows[r]?.getD []) := by
    intro n hn
    induction n with
    | zero => simp [clearedTo_zero]
    | succ n ih =>
      have hlt : n < rows.length := hn
      have htake : rows.zipIdx.take (n + 1) = rows.zipIdx.take n ++ [(rows[n], n)] := by
        rw [List.take_succ_eq_append_getElem (by simpa using hlt)]
        simp
      rw [htake, List.filterMap_append, List.foldl_append, ih (by omega),
        ← clearedTo_succ (List.getElem?_eq_getElem hlt) rfl]
      rfl
  have hall := hsome rows.length (le_refl _)
  rwa [← List.length_zipIdx (i := 0), List.take_length, List.length_zipIdx, clearedTo_length,
    ← clearingOperations_eq] at hall

theorem foldl_operate (t : Tableau) (ops : List RowOperation) :
    ops.foldl operate t = { t with rows := ops.foldl (fun rows op => op.apply rows) t.rows } := by
  induction ops generalizing t with
  | nil => rfl
  | cons op ops ih => rw [List.foldl_cons, ih]; rfl

theorem pivotBy_replayed (t : Tableau) (r q : Nat) (factor : Rat) :
    (t.pivotBy r q factor).operations.foldl operate t = (t.pivotBy r q factor).tableau := by
  simp only [pivotBy, List.foldl_cons]
  rw [foldl_operate]
  congr 1
  exact foldl_clearingOperations (scaleRow t.rows r factor) r q

/-! ## What is kept -/

/-- A column that is zero in the pivot row is not touched. -/
theorem exchange_cell?_of_isUnitColumn (ht : t.Rectangular) (hr : r < t.rows.length)
    (hi : i ≠ r) (hunit : t.isUnitColumn i j = true) :
    (t.exchange r q).cell? k j = t.cell? k j := by
  have hcell := isUnitColumn_iff.mp hunit r hr
  have hj : j < t.columns.length := by
    rw [← ht _ (List.getElem_mem hr)]
    simp only [cell?, List.getElem?_eq_getElem hr, Option.bind_some] at hcell
    exact (List.getElem?_eq_some_iff.mp hcell).1
  have hz : t.entry r j = 0 := by rw [entry_of_isUnitColumn hunit hr, if_neg hi.symm]
  by_cases hk : k < t.rows.length
  · rw [cell?_eq_entry (exchange_rectangular ht) (by simpa using hk) (by simpa using hj),
      cell?_eq_entry ht hk hj, entry_exchange ht hr hk hj, hz]
    by_cases hkr : k = r
    · rw [if_pos hkr, zero_mul, hkr, hz]
    · rw [if_neg hkr, zero_mul, mul_zero, sub_zero]
  · have hnone : ∀ u : Tableau, u.rows.length = t.rows.length → u.cell? k j = none := by
      intro u hu
      rw [cell?, List.getElem?_eq_none (by omega), Option.bind_none]
    rw [hnone t rfl, hnone _ exchange_rows_length]

theorem exchangedBy_pivotBy (ht : t.Rectangular) (hr : r < t.rows.length)
    (hq : q < t.columns.length) (hne : t.entry r q ≠ 0) :
    t.ExchangedBy r q (t.pivotBy r q (t.entry r q)⁻¹) where
  scaled := ⟨_, _, rfl, rfl⟩
  replayed := pivotBy_replayed t r q _
  solutions values hlen := by
    rw [solves_iff_solvedBy ht hlen]
    exact (solves_iff_solvedBy (exchange_rectangular ht) hlen).trans
      (exchange_solvedBy ht hr hq hne _)
  entering i hi := isUnitColumn_iff.mp (exchange_isUnitColumn_entering ht hr hq hne) i
    (by rw [exchange_rows_length]; exact hi)
  others _ _ hi hunit _ := exchange_cell?_of_isUnitColumn ht hr hi hunit
  direction := rfl
  columns := rfl
  objective := rfl

end Tableau

/-- A pivot on a cell that is not zero succeeds and is the exact change of basis that its
record says; on a zero cell it fails by the division. -/
theorem Leaving.pivotStep_exact (l : Leaving) (ht : l.tableau.Rectangular) {column : Nat}
    {cell : Rat} (hcolumn : l.tableau.column? l.entering = some column)
    (hcell : l.tableau.cell? l.row column = some cell) :
    (cell = 0 → l.pivotStep = .error (.arithmetic .divisionByZero)) ∧
      (cell ≠ 0 → ∃ step p, l.pivotStep = .ok step ∧ step.result = .pivoted p ∧
        l.tableau.ExchangedBy l.row column p) := by
  constructor
  · intro hz
    rw [pivotStep, pivot_zero hcolumn (hz ▸ hcell)]
    rfl
  · intro hne
    obtain ⟨cells, hrow, hcells⟩ := Option.bind_eq_some_iff.mp hcell
    obtain ⟨hr, rfl⟩ := List.getElem?_eq_some_iff.mp hrow
    have hq : column < l.tableau.columns.length := by
      rw [← ht _ (List.getElem_mem hr)]
      exact (List.getElem?_eq_some_iff.mp hcells).1
    have hentry : l.tableau.entry l.row column = cell := by simp [Tableau.entry, hcell]
    rw [pivotStep, pivot_eq_ok hcolumn hcell hne]
    refine ⟨_, _, rfl, rfl, ?_⟩
    rw [← hentry] at hne ⊢
    exact Tableau.exchangedBy_pivotBy ht hr hq hne

/-- A pivot that halves its row, has one row to clear and one where there is nothing to do. -/
def Leaving.halving : Leaving where
  tableau := ⟨.max, ["z", "x1", "x2", "e1", "e2", "rhs"],
    [[1, -3, -2, 0, 0, 0], [0, 2, 1, 1, 0, 5], [0, 0, 3, 0, 1, 6]],
    ⟨.max, "z", .ofTerms [("x1", 3), ("x2", 2)]⟩⟩
  entering := "x1"
  leaving := "e1"
  row := 1
  ratios := [.infinite, .finite (5 / 2), .infinite]

theorem Leaving.pivotStep_exact_halving :
    halving.tableau.Rectangular ∧ halving.tableau.column? "x1" = some 1 ∧
      halving.tableau.cell? 1 1 = some 2 ∧ halving.tableau.cell? 2 1 = some 0 ∧
      (∃ step p, halving.pivotStep = .ok step ∧ step.result = .pivoted p ∧
        halving.tableau.ExchangedBy 1 1 p) ∧
      Leaving.pivotStep { halving with row := 2 } = .error (.arithmetic .divisionByZero) := by
  have ht : halving.tableau.Rectangular := by
    unfold Tableau.Rectangular
    decide
  have hcolumn : halving.tableau.column? "x1" = some 1 := by decide +kernel
  have hcell : halving.tableau.cell? 1 1 = some 2 := by decide +kernel
  have hzero : halving.tableau.cell? 2 1 = some 0 := by decide +kernel
  refine ⟨ht, hcolumn, hcell, hzero, ?_, ?_⟩
  · exact (pivotStep_exact halving ht hcolumn hcell).2 (by decide)
  · exact (pivotStep_exact { halving with row := 2 } ht hcolumn hzero).1 rfl

end ExactSimplex
