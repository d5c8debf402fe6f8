import Mathlib.Algebra.Order.Field.Basic
import ExactSimplex.Proofs.Pivoting.Choice
import ExactSimplex.Proofs.Tableau.Exchange

/-! One pivot with the choices of a rule, and what any number of them keeps. A chosen pivot
keeps a tableau canonical, because the least ratio is taken, and puts exactly the entering
column into the basis, because each rule takes the first of identical columns. So does a
sequence of pivots, and every tableau that one leads to has the solutions of the first. -/

namespace ExactSimplex.Tableau

/-- One pivot under a rule leads from the first tableau to the second. -/
def Exchanges (rule : PivotRule) (t u : Tableau) : Prop :=
  ∃ q r, t.Enters rule q ∧ t.Leaves rule q r ∧ u = t.exchange r q

/-- A canonical tableau of the shape, the objective and the solutions of another. -/
structure Reaches (start t : Tableau) : Prop where
  canonical : t.Canonical
  columns : t.columns = start.columns
  direction : t.direction = start.direction
  objective : t.objective = start.objective
  rows : t.rows.length = start.rows.length
  solutions : ∀ x, t.SolvedBy x ↔ start.SolvedBy x

variable {t u start : Tableau} {rule : PivotRule} {i j q r : Nat}

/-! ## A pivot keeps tableaux canonical -/

theorem Leaves.entry_ne (hl : t.Leaves rule q r) : t.entry r q ≠ 0 := ne_of_gt hl.entry_pos

theorem Leaves.rhs_exchange_nonneg (ht : t.Canonical) (hq : q < t.rhsColumn)
    (hl : t.Leaves rule q r) (h0 : 0 < i) (hi : i < t.rows.length) :
    0 ≤ (t.exchange r q).rhs i := by
  have hstep : 0 ≤ t.rhs r * (t.entry r q)⁻¹ :=
    mul_nonneg (ht.rhs_nonneg hl.pos hl.lt) (inv_nonneg.mpr (le_of_lt hl.entry_pos))
  rw [rhs_exchange ht.rectangular hl.lt hi (lt_columns_length hq)]
  split
  · exact hstep
  · rcases le_or_gt (t.entry i q) 0 with hle | hgt
    · have := ht.rhs_nonneg h0 hi
      have := mul_nonneg (neg_nonneg.mpr hle) hstep
      linarith
    · have hmin := hl.least i h0 hi hgt
      rw [le_div_iff₀ hgt, div_eq_mul_inv] at hmin
      linarith [mul_comm (t.entry i q) (t.rhs r * (t.entry r q)⁻¹)]

theorem Canonical.exchange (ht : t.Canonical) (hq : q < t.rhsColumn)
    (hl : t.Leaves rule q r) : (t.exchange r q).Canonical where
  rectangular := exchange_rectangular ht.rectangular
  distinct := ht.distinct
  objectiveColumn := by
    rw [exchange_isUnitColumn ht.rectangular hl.lt (by have := lt_columns_length hq; omega)
      hl.entry_ne (Nat.ne_of_lt hl.pos)]
    exact ht.objectiveColumn
  feasible := by
    refine isBasicFeasible_iff.mpr ?_
    intro i h0 hi
    have hi : i < t.rows.length := by simpa using hi
    refine ⟨?_, fun b hb => ?_⟩
    · have hex : ∃ j, (t.exchange r q).basicColumn? i = some j := by
        by_cases hir : i = r
        · subst hir
          exact exists_basicColumn hq (exchange_isUnitColumn_entering ht.rectangular hl.lt
            (lt_columns_length hq) hl.entry_ne)
        · rw [exchange_basicColumn?_of_ne ht.rectangular hl.lt hl.entry_ne hir]
          exact ht.exists_basic h0 hi
      obtain ⟨j, hj⟩ := hex
      simp [basicVariable?_of_basicColumn hj]
    · have hcols : 0 < (t.exchange r q).columns.length := by
        have := lt_columns_length hq; simp only [exchange_columns]; omega
      rw [rhs?_eq_rhs (exchange_rectangular ht.rectangular) (by simpa using hi) hcols,
        Option.some.injEq] at hb
      exact hb ▸ hl.rhs_exchange_nonneg ht hq h0 hi

/-! ## The basis after a pivot -/

/-- No column before the entering one is a copy of it. -/
theorem Enters.exists_entry_ne (ht : t.Canonical) (he : t.Enters rule q)
    (hl : t.Leaves rule q r) (hj : j < q) :
    ∃ k, k < t.rows.length ∧ t.entry k j ≠ t.entry k q := by
  have hm : 0 < t.rows.length := by have := hl.lt; omega
  rcases Nat.eq_zero_or_pos j with rfl | h0
  · refine ⟨r, hl.lt, ?_⟩
    rw [ht.entry_zero hl.lt, if_neg (Nat.ne_of_gt hl.pos)]
    exact ne_of_lt hl.entry_pos
  · refine ⟨0, hm, fun heq => ?_⟩
    obtain ⟨-, this⟩ := he.first j h0 hj (heq ▸ he.improves)
    rw [heq] at this
    exact lt_irrefl _ this

theorem exchange_basicColumn? (ht : t.Canonical) (he : t.Enters rule q)
    (hl : t.Leaves rule q r) :
    (t.exchange r q).basicColumn? i = if i = r then some q else t.basicColumn? i := by
  by_cases hir : i = r
  · rw [hir, if_pos rfl]
    exact exchange_basicColumn?_self ht.rectangular hl.lt he.lt hl.entry_ne
      fun j hj => he.exists_entry_ne ht hl hj
  · rw [if_neg hir, exchange_basicColumn?_of_ne ht.rectangular hl.lt hl.entry_ne hir]

/-- The entering column is not in the basis of any constraint. -/
theorem Enters.basicColumn?_ne (he : t.Enters rule q) (h0 : 0 < i) (hi : i < t.rows.length) :
    t.basicColumn? i ≠ some q := by
  refine basicColumn?_ne_of_cost h0 hi ?_
  intro hz
  have := improves_iff.mp he.improves
  rw [hz, mul_zero] at this
  exact lt_irrefl _ this

/-! ## The objective -/

theorem rhs_zero_exchange (ht : t.Canonical) (hq : q < t.rhsColumn) (hl : t.Leaves rule q r) :
    (t.exchange r q).rhs 0 = t.rhs 0 - t.entry 0 q * (t.rhs r / t.entry r q) := by
  rw [rhs_exchange ht.rectangular hl.lt (by have := hl.lt; omega) (lt_columns_length hq),
    if_neg (Nat.ne_of_lt hl.pos), div_eq_mul_inv]

/-- The objective does not get worse. -/
theorem sign_mul_rhs_zero_le (ht : t.Canonical) (he : t.Enters rule q)
    (hl : t.Leaves rule q r) :
    t.direction.sign * t.rhs 0 ≤ t.direction.sign * (t.exchange r q).rhs 0 := by
  have hratio : 0 ≤ t.rhs r / t.entry r q :=
    div_nonneg (ht.rhs_nonneg hl.pos hl.lt) (le_of_lt hl.entry_pos)
  have := mul_nonneg (neg_nonneg.mpr (le_of_lt (improves_iff.mp he.improves))) hratio
  rw [rhs_zero_exchange ht he.lt hl]
  linarith

/-- It gets better by any pivot that moves, so one that keeps it has ratio zero. -/
theorem rhs_eq_zero_of_objective_eq (ht : t.Canonical) (he : t.Enters rule q)
    (hl : t.Leaves rule q r)
    (heq : t.direction.sign * (t.exchange r q).rhs 0 = t.direction.sign * t.rhs 0) :
    t.rhs r = 0 := by
  rw [rhs_zero_exchange ht he.lt hl] at heq
  have hz : t.direction.sign * t.entry 0 q * (t.rhs r / t.entry r q) = 0 := by linarith
  have hcost : t.direction.sign * t.entry 0 q ≠ 0 := ne_of_lt (improves_iff.mp he.improves)
  have := (mul_eq_zero.mp hz).resolve_left hcost
  exact (div_eq_zero_iff.mp this).resolve_right hl.entry_ne

/-- A pivot with ratio zero moves nothing. -/
theorem rhs_exchange_of_rhs_eq_zero (ht : t.Canonical) (hq : q < t.rhsColumn)
    (hl : t.Leaves rule q r) (hz : t.rhs r = 0) (hi : i < t.rows.length) :
    (t.exchange r q).rhs i = t.rhs i := by
  rw [rhs_exchange ht.rectangular hl.lt hi (lt_columns_length hq), hz]
  split
  · rename_i hir
    rw [hir, hz, zero_mul]
  · rw [zero_mul, mul_zero, sub_zero]

/-! ## Any number of pivots -/

theorem Reaches.refl (ht : t.Canonical) : t.Reaches t := ⟨ht, rfl, rfl, rfl, rfl, fun _ => Iff.rfl⟩

theorem Reaches.rhsColumn (h : start.Reaches t) : t.rhsColumn = start.rhsColumn := by
  simp only [Tableau.rhsColumn, h.columns]

theorem Reaches.columnName (h : start.Reaches t) (j : Nat) :
    t.columnName j = start.columnName j := by
  simp only [Tableau.columnName, h.columns]

theorem Reaches.exchange (h : start.Reaches t) (hq : q < t.rhsColumn)
    (hl : t.Leaves rule q r) : start.Reaches (t.exchange r q) where
  canonical := h.canonical.exchange hq hl
  columns := h.columns
  direction := h.direction
  objective := h.objective
  rows := by rw [exchange_rows_length]; exact h.rows
  solutions x := (exchange_solvedBy h.canonical.rectangular hl.lt (lt_columns_length hq)
    hl.entry_ne x).trans (h.solutions x)

theorem Reaches.exchanges (h : start.Reaches t) (hu : Exchanges rule t u) :
    start.Reaches u := by
  obtain ⟨q, r, he, hl, rfl⟩ := hu
  exact h.exchange he.lt hl

/-- Tableaux with one start and one basis are the same. -/
theorem Reaches.eq_of_basis (ht : start.Reaches t) (hu : start.Reaches u)
    (hn : 0 < start.rhsColumn)
    (hbasis : ∀ i, i < start.rows.length → u.basicColumn? i = t.basicColumn? i) : u = t := by
  have hrows : u.rows = t.rows := by
    refine ht.canonical.rows_eq_of_basis hu.canonical (ht.rhsColumn ▸ hn)
      (hu.columns.trans ht.columns.symm) (hu.rows.trans ht.rows.symm)
      (fun i hi => hbasis i (ht.rows ▸ hi))
      fun x => (hu.solutions x).trans (ht.solutions x).symm
  have hcols := hu.columns.trans ht.columns.symm
  have hdir := hu.direction.trans ht.direction.symm
  have hobj := hu.objective.trans ht.objective.symm
  cases t
  cases u
  simp only at hrows hcols hdir hobj
  simp [hrows, hcols, hdir, hobj]

end ExactSimplex.Tableau
