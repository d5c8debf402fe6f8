import Mathlib.Algebra.Order.Field.Rat
import Mathlib.Data.List.Basic
import ExactSimplex.Pivoting.Leaving
import ExactSimplex.Proofs.Tableau.Basis
import ExactSimplex.Proofs.Traversal

/-! The lists that the choices of a pivot go through, by column and row numbers: decision
columns, improving costs, ratios. Names stand for columns as long as they are distinct. -/

namespace ExactSimplex.Tableau

/-- The name of a column, empty where there is no column. -/
def columnName (t : Tableau) (j : Nat) : String := (t.columns[j]?).getD ""

/-- The numbers of the decision columns. -/
def decisionRange (t : Tableau) : List Nat := List.range' 1 (t.rhsColumn - 1)

variable {t : Tableau} {i j k q r : Nat}

theorem mem_decisionRange : j ∈ t.decisionRange ↔ 0 < j ∧ j < t.rhsColumn := by
  simp only [decisionRange, List.mem_range'_1]; omega

theorem columns_getElem? (h : j < t.columns.length) : t.columns[j]? = some (t.columnName j) := by
  simp [columnName, List.getElem?_eq_getElem h]

/-- The decision columns are those between the first and the last. -/
theorem decisionColumns_eq :
    t.decisionColumns = t.decisionRange.map fun j => (t.columnName j, j) := by
  have hzip : t.columns.zipIdx =
      (List.range t.columns.length).map fun j => (t.columnName j, j) := by
    refine List.ext_getElem (by simp) ?_
    intro j hj _
    have hj : j < t.columns.length := by simpa using hj
    simp [columnName, List.getElem?_eq_getElem hj]
  have hkeep : (List.range t.columns.length).filter (fun j => j != 0 && j != t.rhsColumn) =
      t.decisionRange := by
    simp only [decisionRange, rhsColumn]
    rcases hn : t.columns.length with _ | _ | n
    · rfl
    · rfl
    · rw [List.range_succ, List.filter_append, List.range_succ_eq_map, List.filter_cons_of_neg
        (by simp), List.filter_eq_self.mpr, List.range'_eq_map_range]
      · simp [Nat.add_comm]
      · intro j hj
        obtain ⟨k, hk, rfl⟩ := List.mem_map.mp hj
        have := List.mem_range.mp hk
        simp only [Nat.succ_eq_add_one, bne_iff_ne, ne_eq, Bool.and_eq_true]
        omega
  unfold decisionColumns
  rw [hzip, List.filter_map, ← hkeep]
  rfl

/-! ## Names and columns -/

theorem column?_columnName (hd : t.columns.dropLast.Nodup) (hj : j < t.rhsColumn) :
    t.column? (t.columnName j) = some j := by
  have hget : ∀ k (hk : k < t.rhsColumn), t.columns.dropLast[k]? = some (t.columnName k) := by
    intro k hk
    rw [List.getElem?_dropLast, if_pos (by simpa [rhsColumn] using hk),
      columns_getElem? (lt_columns_length hk)]
  have hinj : ∀ k, k < j → t.columnName k ≠ t.columnName j := by
    intro k hk he
    have := (List.getElem?_inj (by simpa [rhsColumn] using hj) hd).mp
      ((hget j hj).trans ((congrArg some he).symm.trans (hget k (by omega)).symm))
    omega
  have hlen := lt_columns_length hj
  refine List.idxOf?_eq_some_iff.mpr ⟨hlen, ?_, fun k hk => ?_⟩
  · simp [columnName, List.getElem?_eq_getElem hlen]
  · have := hinj k hk
    simpa [columnName, List.getElem?_eq_getElem hlen,
      List.getElem?_eq_getElem (show k < t.columns.length by omega)] using this

theorem columnName_injective (hd : t.columns.dropLast.Nodup) (hj : j < t.rhsColumn)
    (hk : k < t.rhsColumn) (h : t.columnName j = t.columnName k) : j = k := by
  have hj' := column?_columnName hd hj
  rw [h, column?_columnName hd hk] at hj'
  exact (Option.some.inj hj').symm

theorem basicVariable?_of_basicColumn (h : t.basicColumn? i = some j) :
    t.basicVariable? i = some (t.columnName j) := by
  obtain ⟨hlt, -⟩ := basicColumn?_eq_some.mp h
  rw [← columns_getElem? (lt_columns_length hlt)]
  simp [basicVariable?, h]

theorem Canonical.basicVariable?_eq (ht : t.Canonical) (hn : 0 < t.rhsColumn)
    (hi : i < t.rows.length) : t.basicVariable? i = some (t.columnName (t.basicCol i)) :=
  basicVariable?_of_basicColumn (ht.basicColumn?_eq hn hi)

/-- Every row below the objective's has a basic variable, and no two columns before the
right-hand side share a name. -/
structure Based (t : Tableau) : Prop where
  rectangular : t.Rectangular
  distinct : t.columns.dropLast.Nodup
  basic : ∀ i, 0 < i → i < t.rows.length → ∃ j, t.basicColumn? i = some j

theorem Canonical.based (ht : t.Canonical) : t.Based :=
  ⟨ht.rectangular, ht.distinct, fun _ => ht.exists_basic⟩

namespace Based

theorem basicColumn?_eq (ht : t.Based) (h0 : 0 < i) (hi : i < t.rows.length) :
    t.basicColumn? i = some (t.basicCol i) := by
  obtain ⟨j, hj⟩ := ht.basic i h0 hi
  simp [basicCol, hj]

theorem basicVariable?_eq (ht : t.Based) (h0 : 0 < i) (hi : i < t.rows.length) :
    t.basicVariable? i = some (t.columnName (t.basicCol i)) :=
  basicVariable?_of_basicColumn (ht.basicColumn?_eq h0 hi)

theorem basicRank?_eq (ht : t.Based) (h0 : 0 < i) (hi : i < t.rows.length) :
    t.basicRank? i = some (t.basicCol i) := by
  simp only [basicRank?, ht.basicVariable?_eq h0 hi, Option.bind_some]
  exact column?_columnName ht.distinct (basicColumn?_eq_some.mp (ht.basicColumn?_eq h0 hi)).1

end Based

/-! ## Ratios -/

/-- The outcome of the min-ratio test for every row. -/
def ratioList (t : Tableau) (q : Nat) : List Ratio :=
  (List.range t.rows.length).map fun i => rowRatio i (t.entry i q) (t.rhs i)

theorem ratios?_eq (ht : t.Rectangular) (hq : q < t.columns.length) :
    t.ratios? q = some (t.ratioList q) := by
  have hlist : (t.rows.zipIdx.map fun c => rowRatio c.2 (t.entry c.2 q) (t.rhs c.2)) =
      t.ratioList q := by
    unfold ratioList
    rw [List.range_eq_range', ← List.zipIdx_map_snd 0 t.rows, List.map_map]
    rfl
  rw [← hlist]
  refine mapM_eq_pure (m := Option) ?_
  intro c hmem
  obtain ⟨cells, i⟩ := c
  have hget : t.rows[i]? = some cells := List.mem_zipIdx_iff_getElem?.mp hmem
  obtain ⟨hi, rfl⟩ := List.getElem?_eq_some_iff.mp hget
  have hcell := cell?_eq_entry ht hi hq
  have hrhs := cell?_eq_entry ht hi (rhsColumn_lt hq)
  simp only [cell?, List.getElem?_eq_getElem hi, Option.bind_some] at hcell hrhs
  simp only [hcell, hrhs, rhs]
  rfl

theorem ratioList_getElem? (hi : i < t.rows.length) :
    (t.ratioList q)[i]? = some (rowRatio i (t.entry i q) (t.rhs i)) := by
  simp [ratioList, hi]

theorem mem_ratioList {ratio : Ratio} :
    ratio ∈ t.ratioList q ↔
      ∃ i, i < t.rows.length ∧ rowRatio i (t.entry i q) (t.rhs i) = ratio := by
  simp [ratioList]

end ExactSimplex.Tableau
