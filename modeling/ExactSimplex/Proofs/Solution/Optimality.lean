import ExactSimplex.Proofs.Engine.Reached
import ExactSimplex.Proofs.Solution.Points
import ExactSimplex.Proofs.Solution.Reading

/-! A reported solution is optimal. The basic solution of the last tableau solves the first
one, and on an optimal tableau row 0 bounds the objective of every solution without negative
values, since it is a sum of the objective and costs that do not improve. -/

namespace ExactSimplex

namespace Tableau

variable {t : Tableau} {x : Nat → Rat}

/-- Row 0 of an optimal tableau bounds the objective. -/
theorem Canonical.objective_le (ht : t.Canonical) (hm : 0 < t.rows.length)
    (hn : 0 < t.rhsColumn) (hopt : t.isOptimal = true) (hx : t.rowSum 0 x = t.rhs 0)
    (hpos : ∀ j, 0 < j → j < t.rhsColumn → 0 ≤ x j) :
    t.direction.sign * x 0 ≤ t.direction.sign * t.rhs 0 := by
  obtain ⟨n, hn⟩ := Nat.exists_eq_add_of_le' hn
  have hcosts := (isOptimal_iff ht.rectangular hm).mp hopt
  have hsum : 0 ≤ ∑ j ∈ Finset.range n, t.direction.sign * (t.entry 0 (j + 1) * x (j + 1)) := by
    refine Finset.sum_nonneg ?_
    intro j hj
    have hj : j + 1 < t.rhsColumn := by have := Finset.mem_range.mp hj; omega
    rw [← mul_assoc]
    exact mul_nonneg (improves_eq_false_iff.mp (hcosts _ (by omega) hj)) (hpos _ (by omega) hj)
  rw [← Finset.mul_sum] at hsum
  rw [rowSum, hn, Finset.sum_range_succ', ht.entry_zero hm, if_pos rfl, one_mul] at hx
  rw [← hx, mul_add]
  linarith

end Tableau

/-- What a reported solution says of a program: it gives each variable of the standard form
one value, none negative, and these solve the equalities, give the objective its value and
are not beaten by any feasible point of the standard form. Where standard form only adds
slack, they are an optimal point of the program itself. -/
structure Solution.Optimal (sol : Solution) (p std : Program) : Prop where
  standard : p.standardize = .ok std
  names : sol.values.map (·.1) = std.variableNames
  distinct : std.variableNames.Nodup
  nonneg : ∀ x ∈ sol.values, 0 ≤ x.2
  satisfied : std.Satisfied (Tableau.valueIn sol.values)
  objective : sol.objectiveValue = p.objective.expression.eval (Tableau.valueIn sol.values)
  best : ∀ v, std.Feasible v →
    ¬ p.objective.direction.Better (p.objective.expression.eval v) sol.objectiveValue
  restricted : (∀ c ∈ p.constraints, c.relation = .atMost ∨ c.relation = .equal) →
    (∀ d ∈ p.declarations.entries, d.2 = .nonNegative) →
    ∀ v, (∀ n ∈ p.variableNames, v n = Tableau.valueIn sol.values n) →
      p.Satisfied v ∧ p.Respected v ∧ p.objective.expression.eval v = sol.objectiveValue ∧
      ∀ w, p.Satisfied w → p.Respected w →
        ¬ p.objective.direction.Better (p.objective.expression.eval w) sol.objectiveValue

/-! ## The last tableau -/

namespace Tableau.Reaches

variable {std : Program} {t : Tableau} {v : String → Rat}

theorem basicPoint_names (hr : (layout std).Reaches t) :
    t.basicPoint.map (·.1) = std.variableNames := by
  rw [basicPoint, List.map_map, ← layout_decisionNames std, decisionRange, decisionRange,
    hr.rhsColumn]
  exact List.map_congr_left fun j _ => hr.columnName j

theorem basicPoint_nonneg (hr : (layout std).Reaches t) : ∀ x ∈ t.basicPoint, 0 ≤ x.2 := by
  rw [basicPoint, List.forall_mem_map]
  intro j hj
  obtain ⟨h0, -⟩ := mem_decisionRange.mp hj
  exact hr.canonical.spread_nonneg hr.layout_rhsColumn_pos (fun i => hr.canonical.rhs_nonneg) h0

/-- The basic solution is a feasible point whose objective is the right-hand side of row 0. -/
theorem basicPoint_feasible (hr : (layout std).Reaches t)
    (hw : std.WellFormed) (heq : std.isStandard = true) :
    std.Feasible (valueIn t.basicPoint) ∧
      t.rhs 0 = std.objective.expression.eval (valueIn t.basicPoint) := by
  have ht := hr.canonical
  have hn := hr.layout_rhsColumn_pos
  have hvalue : ∀ j, 0 < j → j < t.rhsColumn →
      t.raised 0 0 j = valueIn t.basicPoint (t.columnName j) := by
    intro j h0 hj
    rw [raised_zero, valueIn_basicPoint ht.distinct h0 hj]
  obtain ⟨hfeas, hz⟩ := hr.feasible_of_raised hw heq hn (le_refl 0)
    (fun i h0 hi => by rw [mul_zero]; exact ht.rhs_nonneg h0 hi) hvalue
  rw [raised_zero, spread_of_basic t.rhs hr.layout_rows_pos (ht.basicColumn?_zero hn)] at hz
  exact ⟨hfeas, hz⟩

/-- No feasible point is better than row 0 of an optimal tableau. -/
theorem not_better (hr : (layout std).Reaches t) (hw : std.WellFormed)
    (heq : std.isStandard = true) (hopt : t.isOptimal = true) (hv : std.Feasible v) :
    ¬ std.objective.direction.Better (std.objective.expression.eval v) (t.rhs 0) := by
  have hsol : t.SolvedBy (t.placed (std.objective.expression.eval v) v) :=
    (hr.solvedBy_iff hw heq fun j h0 _ => placed_of_pos _ h0).mpr ⟨placed_zero .., hv.satisfied⟩
  have hle := hr.canonical.objective_le hr.layout_rows_pos hr.layout_rhsColumn_pos hopt
    (hsol 0 hr.layout_rows_pos) fun j h0 hj => by
      rw [placed_of_pos _ h0]
      exact hv.nonneg _ (hr.mem_variableNames.mpr ⟨j, h0, hj, rfl⟩)
  rw [Direction.better_iff, not_lt]
  rwa [hr.direction, placed_zero] at hle

end Tableau.Reaches

/-- A solution that a run of a well-formed program reports is optimal. -/
theorem Settings.solution_optimal (s : Settings) (p : Program) (hw : p.WellFormed)
    {steps : List Step} (hrun : s.convertTo (.program p) .solution = .ok steps) {sol : Solution}
    (hlast : finalState? steps = some (.solution sol)) : ∃ std, sol.Optimal p std := by
  cases Program.becomes_of_convertTo hw hrun hlast with
  | tableau hstd hbecomes =>
    rename_i std
    cases hbecomes with
    | solution hr hopt hread =>
      rename_i t
      obtain ⟨added, hform⟩ := Program.standardized_of_standardize hstd
      have hwf := hform.wellFormed hw
      obtain ⟨hvalues, hz⟩ := hr.canonical.readSolution_eq_ok hr.layout_rhsColumn_pos hread
      obtain ⟨hfeas, hrhs⟩ := hr.basicPoint_feasible hwf hform.isStandard
      have hobjective : t.objective = std.objective := hr.objective
      rw [hobjective, ← hvalues] at hz
      rw [← hvalues] at hfeas hrhs
      have hbest : ∀ v, std.Feasible v → ¬ p.objective.direction.Better
          (p.objective.expression.eval v) sol.objectiveValue := by
        intro v hv
        rw [hz, ← hrhs, ← hform.objective]
        exact hr.not_better hwf hform.isStandard hopt hv
      rw [hform.objective] at hz
      refine ⟨std, hstd, hvalues ▸ hr.basicPoint_names, hwf.distinct,
        hvalues ▸ hr.basicPoint_nonneg, hfeas.satisfied, hz, hbest, ?_⟩
      intro hrel hnonneg v hagree
      exact hform.restricts hw hrel hnonneg hfeas hz hbest hagree

/-- Two products that share the capacities of three plants. -/
def Program.plants : Program where
  objective := ⟨.max, "z", .ofTerms [("x1", 3), ("x2", 5)]⟩
  constraints := [⟨.ofTerms [("x1", 1)], .atMost, 4⟩, ⟨.ofTerms [("x2", 2)], .atMost, 12⟩,
    ⟨.ofTerms [("x1", 3), ("x2", 2)], .atMost, 18⟩]
  declarations := ⟨[("x1", .nonNegative), ("x2", .nonNegative)]⟩

def Solution.plants : Solution :=
  ⟨"z", 36, [("x1", 2), ("x2", 6), ("e1", 2), ("e2", 0), ("e3", 0)], ["e1", "x2", "x1"]⟩

theorem Settings.solution_optimal_plants :
    Program.plants.WellFormed ∧
      ∃ steps, Settings.convertTo ⟨100, .dantzig⟩ (.program .plants) .solution = .ok steps ∧
        finalState? steps = some (.solution .plants) ∧
        ∃ std, Solution.plants.Optimal .plants std := by
  have hw : Program.plants.WellFormed := by decide +kernel
  have hrun : (Settings.convertTo ⟨100, .dantzig⟩ (.program .plants) .solution).map finalState? =
      .ok (some (.solution .plants)) := by decide +kernel
  obtain ⟨steps, hsteps, hlast⟩ := map_eq_ok.mp hrun
  exact ⟨hw, steps, hsteps, hlast, Settings.solution_optimal _ _ hw hsteps hlast⟩

end ExactSimplex
