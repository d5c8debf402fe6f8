import Mathlib.Tactic.Ring
import ExactSimplex.Pivoting.Start
import ExactSimplex.Proofs.Except
import ExactSimplex.Proofs.Mirror.Image
import ExactSimplex.Proofs.Tableau.Exchange
import ExactSimplex.Solution.Reading

/-! What is chosen in the mirror image of a tableau. Outside row 0 the two tableaux are equal, so
they have the same basic variables and the same ratios; a reduced cost improves the one objective
when its opposite improves the other. -/

namespace ExactSimplex

namespace Tableau

variable {t : Tableau} {i j row column : Nat} {factor : Rat}

/-! ## Cells -/

@[simp] theorem mirror_columns : t.mirror.columns = t.columns := rfl
@[simp] theorem mirror_rhsColumn : t.mirror.rhsColumn = t.rhsColumn := rfl

@[simp] theorem mirror_rows_length : t.mirror.rows.length = t.rows.length := by simp [mirror]

@[simp] theorem mirror_constraintRows : t.mirror.constraintRows = t.constraintRows := by
  simp [constraintRows, constraintCount]

theorem mirrorCosts_getElem? (costs : List Rat) (j : Nat) :
    (mirrorCosts costs)[j]? = costs[j]?.map fun q => if j = 0 then q else -q := by
  cases costs with
  | nil => rfl
  | cons q qs => cases j <;> simp [mirrorCosts]

theorem mirror_rows_getElem? (h0 : 0 < i) : t.mirror.rows[i]? = t.rows[i]? := by
  obtain ⟨k, rfl⟩ := Nat.exists_eq_add_of_le' h0
  cases h : t.rows <;> simp [mirror, h]

theorem cell?_mirror (h0 : 0 < i) (j : Nat) : t.mirror.cell? i j = t.cell? i j := by
  rw [cell?, cell?, mirror_rows_getElem? h0]

theorem cell?_mirror_zero (t : Tableau) (j : Nat) :
    t.mirror.cell? 0 j = (t.cell? 0 j).map fun q => if j = 0 then q else -q := by
  simp only [cell?, mirror]
  cases t.rows with
  | nil => rfl
  | cons costs rows => exact mirrorCosts_getElem? costs j

theorem rhs?_mirror (h0 : 0 < i) : t.mirror.rhs? i = t.rhs? i := cell?_mirror h0 _

/-! ## Basic variables -/

theorem isUnitColumn_mirror (h : 0 < i ∨ j = 0) :
    t.mirror.isUnitColumn i j = t.isUnitColumn i j := by
  rw [Bool.eq_iff_iff, isUnitColumn_iff, isUnitColumn_iff, mirror_rows_length]
  refine forall₂_congr fun k _ => ?_
  rcases Nat.eq_zero_or_pos k with rfl | hk
  · rw [cell?_mirror_zero]
    rcases h with h0 | rfl
    · have hne : ¬ 0 = i := by omega
      cases t.cell? 0 j with
      | none => simp
      | some q => by_cases hj : j = 0 <;> simp [hne, hj]
    · simp
  · rw [cell?_mirror hk]

theorem basicVariable?_mirror_of_pos (h0 : 0 < i) :
    t.mirror.basicVariable? i = t.basicVariable? i := by
  have hcolumn : t.mirror.basicColumn? i = t.basicColumn? i := by
    rw [basicColumn?, basicColumn?, mirror_rhsColumn]
    exact congrArg (List.find? · _) (funext fun j => isUnitColumn_mirror (.inl h0))
  rw [basicVariable?, basicVariable?, hcolumn, mirror_columns]

/-- The objective's column stands first, so not even row 0 has another basic variable. -/
theorem basicVariable?_mirror (hobj : t.isUnitColumn 0 0 = true) (i : Nat) :
    t.mirror.basicVariable? i = t.basicVariable? i := by
  rcases Nat.eq_zero_or_pos i with rfl | h0
  · have hcolumn : t.mirror.basicColumn? 0 = t.basicColumn? 0 := by
      have hobj' : t.mirror.isUnitColumn 0 0 = true := by rw [isUnitColumn_mirror (.inr rfl), hobj]
      rcases Nat.eq_zero_or_pos t.rhsColumn with hn | hn
      · simp [basicColumn?, hn]
      · rw [basicColumn?_eq_some.mpr ⟨hn, hobj, fun k hk => by omega⟩]
        exact basicColumn?_eq_some.mpr ⟨hn, hobj', fun k hk => by omega⟩
    rw [basicVariable?, basicVariable?, hcolumn, mirror_columns]
  · exact basicVariable?_mirror_of_pos h0

/-- The starting basis is a matter of the constraint rows. -/
theorem startFailure?_mirror (t : Tableau) : t.mirror.startFailure? = t.startFailure? := by
  rw [startFailure?, startFailure?, mirror_constraintRows]
  have hpositive : ∀ i ∈ t.constraintRows, 0 < i := by
    simp only [constraintRows, List.mem_range'_1]
    omega
  generalize t.constraintRows = rows at hpositive ⊢
  induction rows with
  | nil => rfl
  | cons i rows ih =>
    obtain ⟨h0, hrows⟩ := List.forall_mem_cons.mp hpositive
    have hrow : t.mirror.rowFailure? i = t.rowFailure? i := by
      rw [rowFailure?, rowFailure?, basicVariable?_mirror_of_pos h0, rhs?_mirror h0]
    rw [List.findSome?_cons, List.findSome?_cons, hrow, ih hrows]

/-! ## The entering variable -/

/-- A cost and its opposite improve opposite objectives. -/
theorem improves_mirror (t : Tableau) (q : Rat) : t.mirror.improves (-q) = t.improves q := by
  cases h : t.direction <;> simp [improves, mirror, Direction.opposite, h]

/-- The cost of a variable in the mirror. -/
def mirrorCost (c : String × Rat) : String × Rat := (c.1, -c.2)

theorem reducedCosts_mirror (t : Tableau) :
    t.mirror.reducedCosts = t.reducedCosts.map mirrorCost := by
  have hcolumns : t.mirror.decisionColumns = t.decisionColumns := rfl
  have hpositive : ∀ c ∈ t.decisionColumns, c.2 ≠ 0 := by
    intro c hc
    simpa using (Bool.and_eq_true_iff.mp (List.mem_filter.mp hc).2).1
  simp only [reducedCosts, hcolumns]
  simp only [mirror]
  cases t.rows with
  | nil => rfl
  | cons costs rows =>
    simp only [List.modifyHead_cons, List.map_filterMap]
    refine List.filterMap_congr fun c hc => ?_
    rw [mirrorCosts_getElem?, Option.map_map, Option.map_map]
    simp [Function.comp_def, hpositive c hc, mirrorCost]

theorem improvingCosts_mirror (t : Tableau) :
    t.mirror.improvingCosts = t.improvingCosts.map mirrorCost := by
  rw [improvingCosts, improvingCosts, reducedCosts_mirror, List.filter_map]
  simp only [Function.comp_def, mirrorCost, improves_mirror]

theorem steeper_mirrorCost (best next : String × Rat) :
    PivotRule.steeper (mirrorCost best) (mirrorCost next) =
      mirrorCost (PivotRule.steeper best next) := by
  simp only [PivotRule.steeper, mirrorCost, Rat.abs_neg]
  split <;> rfl

theorem pickCost_mirror (rule : PivotRule) (costs : List (String × Rat)) :
    rule.pickCost (costs.map mirrorCost) = (rule.pickCost costs).map mirrorCost := by
  cases costs with
  | nil => rfl
  | cons c costs =>
    cases rule with
    | bland => rfl
    | dantzig =>
      simp only [List.map_cons, PivotRule.pickCost, List.foldl_map, Option.map_some]
      rw [List.foldl_hom mirrorCost]
      exact steeper_mirrorCost

theorem entering?_mirror (t : Tableau) (rule : PivotRule) :
    t.mirror.entering? rule = (t.entering? rule).map mirrorCost := by
  rw [entering?, entering?, improvingCosts_mirror, pickCost_mirror]

/-! ## The leaving variable -/

/-- Row 0 has no ratio. -/
theorem ratios?_mirror (t : Tableau) (column : Nat) :
    t.mirror.ratios? column = t.ratios? column := by
  simp only [ratios?, mirror_rhsColumn]
  simp only [mirror]
  cases t.rows with
  | nil => rfl
  | cons costs rows =>
    simp only [List.modifyHead_cons, List.zipIdx_cons, List.mapM_cons, mirrorCosts_getElem?]
    congr 1
    cases costs[column]? <;> cases costs[t.rhsColumn]? <;> simp [rowRatio]

theorem ratioTest_mirror (t : Tableau) (entering : String) :
    t.mirror.ratioTest entering = t.ratioTest entering := by
  have hratios : t.mirror.ratios? = t.ratios? := funext t.ratios?_mirror
  have hcolumn : t.mirror.column? entering = t.column? entering := rfl
  rw [ratioTest, ratioTest, hcolumn, hratios]

theorem chooseLeaving_mirror (hobj : t.isUnitColumn 0 0 = true) (rule : PivotRule)
    (ratios : List Ratio) : t.mirror.chooseLeaving rule ratios = t.chooseLeaving rule ratios := by
  have hrank : ∀ i, t.mirror.basicRank? i = t.basicRank? i := by
    intro i
    rw [basicRank?, basicRank?, basicVariable?_mirror hobj]
    rfl
  have hpick : ∀ rows, t.mirror.pickRow? rule rows = t.pickRow? rule rows := by
    intro rows
    cases rows <;> simp only [pickRow?, hrank]
  simp only [chooseLeaving, hpick, basicVariable?_mirror hobj]

/-! ## The pivot -/

theorem scaleRow_mirror (rows : List (List Rat)) (h0 : 0 < row) (factor : Rat) :
    scaleRow (rows.modifyHead mirrorCosts) row factor =
      (scaleRow rows row factor).modifyHead mirrorCosts := by
  obtain ⟨k, rfl⟩ := Nat.exists_eq_add_of_le' h0
  cases rows <;> simp [scaleRow]

theorem clearing_mirrorCosts (costs : List Rat) (h0 : 0 < column) :
    clearing (mirrorCosts costs) column = -clearing costs column := by
  rw [clearing, clearing, mirrorCosts_getElem?]
  cases costs[column]? <;> simp [show column ≠ 0 by omega]

theorem addRow_neg (factor : Rat) (cells pivotRow : List Rat) :
    RowOperation.addRow (-factor) (cells.map (-·)) pivotRow =
      (RowOperation.addRow factor cells pivotRow).map (-·) := by
  induction cells generalizing pivotRow with
  | nil => cases pivotRow <;> rfl
  | cons a cells ih =>
    cases pivotRow with
    | nil => rfl
    | cons b pivotRow =>
      simp only [List.map_cons, RowOperation.addRow, ih]
      congr 1
      ring

/-- A pivot row without the objective leaves the first entry of row 0 as it is. -/
theorem addRow_mirrorCosts (factor : Rat) (costs : List Rat) {pivotRow : List Rat}
    (hfirst : ∀ b ∈ pivotRow.head?, b = 0) :
    RowOperation.addRow (-factor) (mirrorCosts costs) pivotRow =
      mirrorCosts (RowOperation.addRow factor costs pivotRow) := by
  cases costs with
  | nil => cases pivotRow <;> rfl
  | cons a costs =>
    cases pivotRow with
    | nil => rfl
    | cons b pivotRow =>
      obtain rfl : b = 0 := hfirst b rfl
      simp only [mirrorCosts, RowOperation.addRow, mul_zero, addRow_neg]

theorem clearColumn_mirror (rows : List (List Rat)) (hrow : 0 < row) (hcolumn : 0 < column)
    {pivotRow : List Rat} (hfirst : ∀ b ∈ pivotRow.head?, b = 0) :
    clearColumn (rows.modifyHead mirrorCosts) row column pivotRow =
      (clearColumn rows row column pivotRow).modifyHead mirrorCosts := by
  cases rows with
  | nil => rfl
  | cons costs rows =>
    have hne : ¬ 0 = row := by omega
    simp only [clearColumn, List.modifyHead_cons, List.mapIdx_cons, hne, false_or,
      clearing_mirrorCosts costs hcolumn, neg_eq_zero, addRow_mirrorCosts _ costs hfirst]
    congr 1
    split <;> rfl

theorem clearingOperations_mirror (rows : List (List Rat)) (hrow : 0 < row)
    (hcolumn : 0 < column) :
    clearingOperations (rows.modifyHead mirrorCosts) row column =
      (clearingOperations rows row column).map RowOperation.mirror := by
  cases rows with
  | nil => rfl
  | cons costs rows =>
    have hne : ¬ 0 = row := by omega
    have hlater : ∀ c ∈ rows.zipIdx 1,
        (if c.2 = row ∨ clearing c.1 column = 0 then none
          else some (RowOperation.addMultiple c.2 (clearing c.1 column) row)) =
        Option.map RowOperation.mirror (if c.2 = row ∨ clearing c.1 column = 0 then none
          else some (.addMultiple c.2 (clearing c.1 column) row)) := by
      intro c hc
      obtain ⟨k, hk⟩ := Nat.exists_eq_add_of_le' (List.le_snd_of_mem_zipIdx hc)
      rw [hk]
      split <;> rfl
    simp only [clearingOperations, List.modifyHead_cons, List.zipIdx_cons, List.filterMap_cons,
      hne, false_or, clearing_mirrorCosts costs hcolumn, neg_eq_zero, zero_add]
    by_cases hzero : clearing costs column = 0
    · simp only [hzero, if_true, List.map_filterMap]
      exact List.filterMap_congr hlater
    · simp only [hzero, if_false, List.map_cons, List.map_filterMap]
      exact congrArg _ (List.filterMap_congr hlater)

/-- The row that is pivoted on has nothing in the objective's column. -/
theorem scaledRow_head? (hobj : t.isUnitColumn 0 0 = true) (hrow : 0 < row) :
    ∀ b ∈ ((scaleRow t.rows row factor)[row]?.getD []).head?, b = 0 := by
  intro b hb
  rw [scaleRow_getElem?] at hb
  cases hcells : t.rows[row]? with
  | none => simp [hcells] at hb
  | some cells =>
    have hlt : row < t.rows.length := (List.getElem?_eq_some_iff.mp hcells).1
    have hzero := isUnitColumn_iff.mp hobj row hlt
    simp only [cell?, hcells, Option.bind_some, if_neg (show row ≠ 0 by omega)] at hzero
    simp only [hcells, Option.map_some, if_true, Option.getD_some, List.head?_eq_getElem?,
      List.getElem?_map, hzero, zero_mul, Option.mem_def, Option.some.injEq] at hb
    exact hb.symm

/-- A pivot below row 0 in a column after the objective's is the same pivot in the mirror. -/
theorem pivotBy_mirror (hobj : t.isUnitColumn 0 0 = true) (hrow : 0 < row) (hcolumn : 0 < column) :
    t.mirror.pivotBy row column factor = (t.pivotBy row column factor).mirror := by
  have hscaled := scaleRow_mirror t.rows hrow factor
  have hpivot : ((scaleRow t.rows row factor).modifyHead mirrorCosts)[row]? =
      (scaleRow t.rows row factor)[row]? := by
    obtain ⟨k, rfl⟩ := Nat.exists_eq_add_of_le' hrow
    cases scaleRow t.rows (k + 1) factor <;> simp
  simp only [pivotBy, Pivoted.mirror, mirror, hscaled, hpivot, List.map_cons,
    clearColumn_mirror _ hrow hcolumn (scaledRow_head? hobj hrow),
    clearingOperations_mirror _ hrow hcolumn]
  rfl

end Tableau

theorem Leaving.pivot_mirror {l : Leaving} (hobj : l.tableau.isUnitColumn 0 0 = true)
    (hrow : 0 < l.row) (hcolumn : ∀ column ∈ l.tableau.column? l.entering, 0 < column) :
    l.mirror.pivot = l.pivot.map Pivoted.mirror := by
  have hcell : ∀ j, l.mirror.tableau.cell? l.mirror.row j = l.tableau.cell? l.row j :=
    Tableau.cell?_mirror hrow
  have hsame : l.mirror.tableau.column? l.mirror.entering = l.tableau.column? l.entering := rfl
  simp only [pivot, hsame, hcell]
  cases hc : l.tableau.column? l.entering with
  | none => rfl
  | some column =>
    simp only
    cases l.tableau.cell? l.row column with
    | none => rfl
    | some cell =>
      simp only
      cases Rational.reciprocal cell with
      | error e => rfl
      | ok factor => exact congrArg Except.ok (Tableau.pivotBy_mirror hobj hrow (hcolumn column hc))

/-! ## The solution -/

namespace Tableau

variable {t : Tableau} {s : Solution}

theorem basicValue_mirror (t : Tableau) (basis : List String) (name : String) :
    t.mirror.basicValue basis name = t.basicValue basis name := by
  simp only [basicValue, rhs?_mirror (Nat.succ_pos _)]

theorem rhs?_mirror_zero (hn : 0 < t.rhsColumn) : t.mirror.rhs? 0 = (t.rhs? 0).map (-·) := by
  rw [rhs?, rhs?, mirror_rhsColumn, cell?_mirror_zero]
  simp only [show t.rhsColumn ≠ 0 by omega, if_false]

/-- The two values of the objective agree in the mirror if they agree at all. -/
theorem readSolution_mirror (hobj : t.isUnitColumn 0 0 = true) (hn : 0 < t.rhsColumn)
    (h : t.readSolution = .ok s) : t.mirror.readSolution = .ok s.mirror := by
  obtain ⟨basis, hbasis, h⟩ := bind_eq_ok.mp h
  obtain ⟨values, hvalues, h⟩ := bind_eq_ok.mp h
  have hbasis' : t.mirror.basis = .ok basis := by
    rw [← hbasis]
    simp only [Tableau.basis, mirror_constraintRows, basicVariable?_mirror hobj]
  have hvalues' : t.mirror.basicValues basis = .ok values := by
    rw [← hvalues]
    simp only [basicValues, basicValue_mirror]
    rfl
  have hrhs : (t.mirror.rhs? 0).getD 0 = -(t.rhs? 0).getD 0 := by
    rw [rhs?_mirror_zero hn]
    cases t.rhs? 0 <;> simp
  have heval : t.mirror.objective.expression.eval (valueIn values) =
      -t.objective.expression.eval (valueIn values) := LinearForm.eval_negated _ _
  simp only at h
  split at h
  · rename_i hagree
    cases h
    simp only [readSolution, hbasis', hvalues', bind, Except.bind, hrhs, heval, hagree, if_true]
    rfl
  · cases h

end Tableau

end ExactSimplex
