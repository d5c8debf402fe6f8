import ExactSimplex.Proofs.Pivoting.Exchange
import ExactSimplex.Proofs.Tableau.Layout

/-! The tableaux that pivots lead to from the layout of a program, read as statements about
the program: values for the columns solve such a tableau when the values of the names satisfy
the program. The basic solution and those that raise a column are feasible points. -/

namespace ExactSimplex.Tableau

variable {t : Tableau} {std : Program} {x : Nat → Rat} {v : String → Rat} {j q : Nat} {θ : Rat}

/-! ## Columns and names -/

theorem placed_zero (t : Tableau) (z : Rat) (v : String → Rat) : t.placed z v 0 = z := if_pos rfl

theorem placed_of_pos (z : Rat) (h0 : 0 < j) : t.placed z v j = v (t.columnName j) :=
  if_neg (by omega)

/-- No column after the first is negative in a raised solution when no row gets negative. -/
theorem Canonical.raised_nonneg (ht : t.Canonical) (hn : 0 < t.rhsColumn) (hθ : 0 ≤ θ)
    (hrow : ∀ i, 0 < i → i < t.rows.length → t.entry i q * θ ≤ t.rhs i) (h0 : 0 < j) :
    0 ≤ t.raised q θ j := by
  refine add_nonneg ?_ (ht.spread_nonneg hn (fun i hi hlt => sub_nonneg.mpr (hrow i hi hlt)) h0)
  split
  · exact hθ
  · exact le_refl _

/-- The value of the objective in a raised solution. -/
theorem Canonical.raised_objective (ht : t.Canonical) (hn : 0 < t.rhsColumn)
    (hm : 0 < t.rows.length) (h0 : 0 < q) : t.raised q θ 0 = t.rhs 0 - t.entry 0 q * θ := by
  unfold raised
  rw [if_neg (by omega), zero_add, spread_of_basic _ hm (ht.basicColumn?_zero hn)]

namespace Reaches

theorem layout_rhsColumn_pos (hr : (layout std).Reaches t) : 0 < t.rhsColumn := by
  rw [hr.rhsColumn, layout_rhsColumn]; omega

theorem layout_rows_pos (hr : (layout std).Reaches t) : 0 < t.rows.length := by
  rw [hr.rows, layout_rows_length]; omega

theorem mem_variableNames (hr : (layout std).Reaches t) {name : String} :
    name ∈ std.variableNames ↔ ∃ j, 0 < j ∧ j < t.rhsColumn ∧ t.columnName j = name := by
  rw [← layout_decisionNames std]
  simp only [List.mem_map, mem_decisionRange, hr.columnName, hr.rhsColumn, and_assoc]

/-- The solutions of a tableau that pivots lead to are the points of the program. -/
theorem solvedBy_iff (hr : (layout std).Reaches t) (hw : std.WellFormed)
    (heq : std.isStandard = true)
    (hx : ∀ j, 0 < j → j < t.rhsColumn → x j = v (t.columnName j)) :
    t.SolvedBy x ↔ x 0 = std.objective.expression.eval v ∧ std.Satisfied v := by
  refine (hr.solutions x).trans (layout_solvedBy_iff hw.toScoped heq fun j h0 hj => ?_)
  rw [hx j h0 (hr.rhsColumn ▸ hj), hr.columnName]

/-- A raised solution without negative values is a feasible point. -/
theorem feasible_of_raised (hr : (layout std).Reaches t) (hw : std.WellFormed)
    (heq : std.isStandard = true) (hq : q < t.rhsColumn) (hθ : 0 ≤ θ)
    (hrow : ∀ i, 0 < i → i < t.rows.length → t.entry i q * θ ≤ t.rhs i)
    (hv : ∀ j, 0 < j → j < t.rhsColumn → t.raised q θ j = v (t.columnName j)) :
    std.Feasible v ∧ t.raised q θ 0 = std.objective.expression.eval v := by
  obtain ⟨hz, hsat⟩ := (hr.solvedBy_iff hw heq hv).mp (hr.canonical.raised_solves hq θ)
  refine ⟨⟨fun name hname => ?_, hsat⟩, hz⟩
  obtain ⟨j, h0, hj, rfl⟩ := hr.mem_variableNames.mp hname
  rw [← hv j h0 hj]
  exact hr.canonical.raised_nonneg hr.layout_rhsColumn_pos hθ hrow h0

end Reaches

end ExactSimplex.Tableau
