import Mathlib.Algebra.BigOperators.Group.Finset.Sigma
import Mathlib.Algebra.Order.BigOperators.Group.Finset
import Mathlib.Algebra.Order.Field.Rat
import Mathlib.Tactic.LinearCombination
import ExactSimplex.Pivoting.Start
import ExactSimplex.Proofs.Tableau.Equation

/-! Canonical tableaux: every row has a basic column and gives it a value that is not
negative. Choosing values for the other columns determines those of the basic ones, so a
canonical tableau shows all solutions of its rows; raising one column from the basic
solution is the move that an iteration of the simplex method makes. Two canonical tableaux
with the same solutions and the same basic columns have the same rows. -/

namespace ExactSimplex.Tableau

/-- What a run keeps of a tableau: its shape, distinct names for its variables, the unit
column of the objective and a feasible basis. -/
structure Canonical (t : Tableau) : Prop where
  rectangular : t.Rectangular
  distinct : t.columns.dropLast.Nodup
  objectiveColumn : t.isUnitColumn 0 0 = true
  feasible : t.IsBasicFeasible

/-- The basic column of a row, for rows that have one. -/
def basicCol (t : Tableau) (i : Nat) : Nat := (t.basicColumn? i).getD 0

/-- The basic column of each row with the value that `f` gives the row, all others zero. -/
def spread (t : Tableau) (f : Nat → Rat) (j : Nat) : Rat :=
  ∑ i ∈ Finset.range t.rows.length, if t.basicColumn? i = some j then f i else 0

/-- The solution in which the column `q` is raised by `θ` from the basic solution and the
basic columns make up for it. -/
def raised (t : Tableau) (q : Nat) (θ : Rat) (j : Nat) : Rat :=
  (if j = q then θ else 0) + t.spread (fun i => t.rhs i - t.entry i q * θ) j

variable {t u : Tableau} {i j k q : Nat}

theorem Regular.canonical (ht : t.Regular) (hf : t.IsBasicFeasible) : t.Canonical where
  rectangular := ht.rectangular
  distinct := ht.distinct.sublist (List.dropLast_sublist _)
  objectiveColumn := ht.objectiveColumn
  feasible := hf

/-! ## The basis of a canonical tableau -/

namespace Canonical

theorem exists_basic (ht : t.Canonical) (h0 : 0 < i) (hi : i < t.rows.length) :
    ∃ j, t.basicColumn? i = some j :=
  exists_basicColumn_of_isSome (isBasicFeasible_iff.mp ht.feasible i h0 hi).1

theorem rhs_nonneg (ht : t.Canonical) (h0 : 0 < i) (hi : i < t.rows.length) :
    0 ≤ t.rhs i := by
  obtain ⟨j, hj⟩ := ht.exists_basic h0 hi
  obtain ⟨hlt, -⟩ := basicColumn?_eq_some.mp hj
  obtain ⟨-, hnonneg⟩ := isBasicFeasible_iff.mp ht.feasible i h0 hi
  have hn := lt_columns_length hlt
  exact hnonneg _ (rhs?_eq_rhs ht.rectangular hi (by omega))

/-- The objective's column comes first, so it is the basic column of row 0. -/
theorem basicColumn?_zero (ht : t.Canonical) (hn : 0 < t.rhsColumn) :
    t.basicColumn? 0 = some 0 :=
  basicColumn?_eq_some.mpr ⟨hn, ht.objectiveColumn, fun k hk => by omega⟩

theorem basicColumn?_eq (ht : t.Canonical) (hn : 0 < t.rhsColumn) (hi : i < t.rows.length) :
    t.basicColumn? i = some (t.basicCol i) := by
  have hex : ∃ j, t.basicColumn? i = some j := by
    rcases Nat.eq_zero_or_pos i with rfl | h0
    · exact ⟨0, ht.basicColumn?_zero hn⟩
    · exact ht.exists_basic h0 hi
  obtain ⟨j, hj⟩ := hex
  simp [basicCol, hj]

theorem basicCol_zero (ht : t.Canonical) (hn : 0 < t.rhsColumn) : t.basicCol 0 = 0 := by
  simp [basicCol, ht.basicColumn?_zero hn]

theorem basicCol_lt (ht : t.Canonical) (hn : 0 < t.rhsColumn) (hi : i < t.rows.length) :
    t.basicCol i < t.rhsColumn := (basicColumn?_eq_some.mp (ht.basicColumn?_eq hn hi)).1

theorem basicCol_pos (ht : t.Canonical) (h0 : 0 < i) (hi : i < t.rows.length)
    (hn : 0 < t.rhsColumn) : 0 < t.basicCol i := by
  refine Nat.pos_of_ne_zero ?_
  intro hz
  have hi' := ht.basicColumn?_eq hn hi
  rw [hz] at hi'
  have := basicColumn?_injective hi hi' (ht.basicColumn?_zero hn)
  omega

theorem entry_basicCol (ht : t.Canonical) (hn : 0 < t.rhsColumn) (hi : i < t.rows.length)
    (hk : k < t.rows.length) : t.entry k (t.basicCol i) = if k = i then 1 else 0 :=
  entry_basicColumn (ht.basicColumn?_eq hn hi) hk

/-- The objective's row has entry 1 in its own column, every other row has 0 there. -/
theorem entry_zero (ht : t.Canonical) (hk : k < t.rows.length) :
    t.entry k 0 = if k = 0 then 1 else 0 := entry_of_isUnitColumn ht.objectiveColumn hk

end Canonical

/-- A column with a reduced cost is in the basis of no constraint. -/
theorem basicColumn?_ne_of_cost (h0 : 0 < i) (hi : i < t.rows.length)
    (hcost : t.entry 0 j ≠ 0) : t.basicColumn? i ≠ some j := by
  intro hb
  have := entry_basicColumn hb (show 0 < t.rows.length by omega)
  rw [if_neg (by omega)] at this
  exact hcost this

/-! ## Sums over the basis -/

theorem spread_of_basic (f : Nat → Rat) (hi : i < t.rows.length)
    (h : t.basicColumn? i = some j) : t.spread f j = f i := by
  unfold spread
  rw [Finset.sum_eq_single i]
  · simp [h]
  · intro k hk hne
    refine if_neg fun hb => hne ?_
    exact basicColumn?_injective (Finset.mem_range.mp hk) hb h
  · intro hni
    exact absurd (Finset.mem_range.mpr hi) hni

theorem spread_of_nonbasic (f : Nat → Rat)
    (h : ∀ i, i < t.rows.length → t.basicColumn? i ≠ some j) : t.spread f j = 0 :=
  Finset.sum_eq_zero fun i hi => if_neg (h i (Finset.mem_range.mp hi))

theorem Canonical.spread_nonneg (ht : t.Canonical) (hn : 0 < t.rhsColumn) {f : Nat → Rat}
    (hf : ∀ i, 0 < i → i < t.rows.length → 0 ≤ f i) (hj : 0 < j) : 0 ≤ t.spread f j := by
  refine Finset.sum_nonneg ?_
  intro i hi
  split
  · rename_i hb
    refine hf i (Nat.pos_of_ne_zero fun hz => ?_) (Finset.mem_range.mp hi)
    rw [hz, ht.basicColumn?_zero hn, Option.some.injEq] at hb
    omega
  · exact le_refl _

theorem Canonical.sum_mul_spread (ht : t.Canonical) (hn : 0 < t.rhsColumn) (c f : Nat → Rat) :
    ∑ j ∈ Finset.range t.rhsColumn, c j * t.spread f j =
      ∑ i ∈ Finset.range t.rows.length, c (t.basicCol i) * f i := by
  simp only [spread, Finset.mul_sum]
  rw [Finset.sum_comm]
  refine Finset.sum_congr rfl ?_
  intro i hi
  have hi := Finset.mem_range.mp hi
  rw [Finset.sum_eq_single (t.basicCol i)]
  · rw [if_pos (ht.basicColumn?_eq hn hi)]
  · intro j _ hne
    rw [ht.basicColumn?_eq hn hi, if_neg (by simpa using hne.symm), mul_zero]
  · intro hni
    exact absurd (Finset.mem_range.mpr (ht.basicCol_lt hn hi)) hni

/-- What a weighting of the columns gives for a raised column. -/
theorem Canonical.sum_mul_raised (ht : t.Canonical) (hq : q < t.rhsColumn) (c : Nat → Rat)
    (θ : Rat) :
    ∑ j ∈ Finset.range t.rhsColumn, c j * t.raised q θ j =
      c q * θ + ∑ i ∈ Finset.range t.rows.length,
        c (t.basicCol i) * (t.rhs i - t.entry i q * θ) := by
  simp only [raised, mul_add, Finset.sum_add_distrib]
  rw [ht.sum_mul_spread (by omega)]
  congr 1
  simp [Finset.mem_range.mpr hq]

theorem raised_zero : t.raised q 0 = t.spread t.rhs := by
  funext j
  simp [raised]

/-- A raised column gives a solution, whatever column it is and however far it is raised. -/
theorem Canonical.raised_solves (ht : t.Canonical) (hq : q < t.rhsColumn) (θ : Rat) :
    t.SolvedBy (t.raised q θ) := by
  intro i hi
  have hrow : ∑ k ∈ Finset.range t.rows.length,
      t.entry i (t.basicCol k) * (t.rhs k - t.entry k q * θ) = t.rhs i - t.entry i q * θ := by
    rw [Finset.sum_eq_single i]
    · rw [ht.entry_basicCol (by omega) hi hi, if_pos rfl, one_mul]
    · intro k hk hne
      rw [ht.entry_basicCol (by omega) (Finset.mem_range.mp hk) hi, if_neg hne.symm, zero_mul]
    · intro hni
      exact absurd (Finset.mem_range.mpr hi) hni
  unfold rowSum
  rw [ht.sum_mul_raised hq, hrow]
  ring

/-! ## The rows are determined by the solutions and the basis -/

/-- The rows of one tableau, applied to a raised column of another with the same basis. -/
theorem Canonical.rowSum_raised_of_basis (ht : t.Canonical) (hu : u.Canonical)
    (hcols : u.columns = t.columns) (hrows : u.rows.length = t.rows.length)
    (hbasis : ∀ i, i < t.rows.length → u.basicColumn? i = t.basicColumn? i)
    (hq : q < t.rhsColumn) (θ : Rat) (hi : i < t.rows.length) :
    u.rowSum i (t.raised q θ) = u.entry i q * θ + (t.rhs i - t.entry i q * θ) := by
  have hcol : u.rhsColumn = t.rhsColumn := by simp only [rhsColumn, hcols]
  have hbc : ∀ k, k < t.rows.length → t.basicCol k = u.basicCol k := by
    intro k hk
    simp only [basicCol, hbasis k hk]
  unfold rowSum
  rw [hcol, ht.sum_mul_raised hq]
  congr 1
  rw [Finset.sum_eq_single i]
  · rw [hbc i hi, hu.entry_basicCol (by omega) (by omega) (by omega), if_pos rfl, one_mul]
  · intro k hk hne
    have hk := Finset.mem_range.mp hk
    rw [hbc k hk, hu.entry_basicCol (by omega) (by omega) (by omega), if_neg hne.symm, zero_mul]
  · intro hni
    exact absurd (Finset.mem_range.mpr hi) hni

theorem Canonical.rows_eq_of_basis (ht : t.Canonical) (hu : u.Canonical)
    (hn : 0 < t.rhsColumn) (hcols : u.columns = t.columns)
    (hrows : u.rows.length = t.rows.length)
    (hbasis : ∀ i, i < t.rows.length → u.basicColumn? i = t.basicColumn? i)
    (hsol : ∀ x, u.SolvedBy x ↔ t.SolvedBy x) : u.rows = t.rows := by
  -- raising a column by any amount solves both tableaux, which fixes its entries
  have heq : ∀ i, i < t.rows.length → ∀ q, q < t.rhsColumn → ∀ θ : Rat,
      u.entry i q * θ + (t.rhs i - t.entry i q * θ) = u.rhs i := by
    intro i hi q hq θ
    rw [← ht.rowSum_raised_of_basis hu hcols hrows hbasis hq θ hi]
    exact (hsol _).mpr (ht.raised_solves hq θ) i (by omega)
  have hrhs : ∀ i, i < t.rows.length → u.rhs i = t.rhs i := by
    intro i hi
    have := heq i hi 0 hn 0
    simpa using this.symm
  refine rows_eq_of_entry_eq ht.rectangular hu.rectangular (by rw [hcols]) hrows
    fun i hi j hj => ?_
  rcases Nat.lt_or_ge j t.rhsColumn with hq | hq
  · have := heq i hi j hq 1
    rw [hrhs i hi] at this
    linear_combination this
  · have hj' : j = t.rhsColumn := by unfold rhsColumn at hq ⊢; omega
    have hcol : u.rhsColumn = t.rhsColumn := by simp only [rhsColumn, hcols]
    have := hrhs i hi
    simp only [rhs, hcol] at this
    rw [hj']
    exact this

end ExactSimplex.Tableau
