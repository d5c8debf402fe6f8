import ExactSimplex.Proofs.Engine.Reached
import ExactSimplex.Proofs.Solution.Points

/-! An unbounded verdict is right. Nothing limits the entering column of the last tableau, so
raising its variable from the basic solution stays feasible and improves the objective by its
reduced cost each time, without end. -/

namespace ExactSimplex

/-- What an unbounded verdict says of a program: from a point of the standard form in which
the entering variable is zero, raising it stays feasible however far it goes, only basic
variables make up for it, and the objective becomes better than any bound. -/
structure Entering.Unbounded (e : Entering) (p std : Program) : Prop where
  standard : p.standardize = .ok std
  declared : e.name ∈ std.variableNames
  raised : ∃ base ray : String → Rat, base e.name = 0 ∧ ray e.name = 1 ∧
    (∀ n ∈ std.variableNames, n ≠ e.name → some n ∉ e.tableau.basicVariables →
      base n = 0 ∧ ray n = 0) ∧
    (∀ θ, 0 ≤ θ → std.Feasible fun n => base n + θ * ray n) ∧
    ∀ bound, ∃ θ, 0 ≤ θ ∧ p.objective.direction.Better
      (p.objective.expression.eval fun n => base n + θ * ray n) bound
  notBounded : ¬ ∃ bound, ∀ v, std.Feasible v →
    ¬ p.objective.direction.Better (p.objective.expression.eval v) bound

namespace Tableau

variable {t : Tableau} {std : Program} {rule : PivotRule} {q j : Nat}

/-- What raising a column by 1 changes. -/
def ray (t : Tableau) (q j : Nat) : Rat :=
  (if j = q then 1 else 0) + t.spread (fun i => -t.entry i q) j

theorem raised_eq (θ : Rat) : t.raised q θ j = t.spread t.rhs j + θ * t.ray q j := by
  simp only [raised, ray, spread, mul_add, Finset.mul_sum]
  rw [add_left_comm, ← Finset.sum_add_distrib, mul_ite, mul_one, mul_zero]
  congr 1
  refine Finset.sum_congr rfl ?_
  intro i _
  split <;> ring

theorem named_raised (θ : Rat) :
    t.named (t.raised q θ) =
      fun name => t.named (t.spread t.rhs) name + θ * t.named (t.ray q) name := by
  funext name
  unfold named
  cases t.column? name with
  | none => simp
  | some j => simp [raised_eq]

/-- An entering column is in no basis, that of the objective included. -/
theorem Enters.not_basic (he : t.Enters rule q) (ht : t.Canonical) {i : Nat}
    (hi : i < t.rows.length) : t.basicColumn? i ≠ some q := by
  rcases Nat.eq_zero_or_pos i with rfl | h0
  · rw [ht.basicColumn?_zero (by have := he.lt; omega), ne_eq, Option.some.injEq]
    have := he.pos
    omega
  · exact he.basicColumn?_ne h0 hi

theorem not_basic_of_not_mem (hn : some (t.columnName j) ∉ t.basicVariables) {i : Nat}
    (hi : i < t.rows.length) : t.basicColumn? i ≠ some j := fun hb =>
  hn (List.mem_map.mpr ⟨i, List.mem_range.mpr hi, basicVariable?_of_basicColumn hb⟩)

/-- Raising a column that improves makes the objective better than any bound. -/
theorem exists_raised_better (ht : t.Canonical) (hm : 0 < t.rows.length)
    (he : t.Enters rule q) (bound : Rat) :
    ∃ θ, 0 ≤ θ ∧ t.direction.Better (t.raised q θ 0) bound := by
  have hn : 0 < t.rhsColumn := by have := he.lt; omega
  have hcost : 0 < -(t.direction.sign * t.entry 0 q) := neg_pos.mpr (improves_iff.mp he.improves)
  -- far enough to make up for the gap, and one step more
  let gap := |t.direction.sign * bound - t.direction.sign * t.rhs 0|
  refine ⟨gap / -(t.direction.sign * t.entry 0 q) + 1,
    add_nonneg (div_nonneg (abs_nonneg _) (le_of_lt hcost)) zero_le_one, ?_⟩
  have hgap : t.direction.sign * bound - t.direction.sign * t.rhs 0 ≤ gap := le_abs_self _
  have hstep : -(t.direction.sign * t.entry 0 q) *
      (gap / -(t.direction.sign * t.entry 0 q) + 1) =
        gap + -(t.direction.sign * t.entry 0 q) := by
    rw [mul_add, mul_div_cancel₀ _ (ne_of_gt hcost), mul_one]
  rw [Direction.better_iff, ht.raised_objective hn hm he.pos, mul_sub, ← mul_assoc]
  linarith

namespace Reaches

/-- However far an entering column that nothing limits is raised, the point is feasible. -/
theorem feasible_named_raised (hr : (layout std).Reaches t) (hw : std.WellFormed)
    (heq : std.isStandard = true) (he : t.Enters rule q)
    (hall : ∀ i, 0 < i → i < t.rows.length → t.entry i q ≤ 0) {θ : Rat} (hθ : 0 ≤ θ) :
    std.Feasible (t.named (t.raised q θ)) ∧
      t.raised q θ 0 = std.objective.expression.eval (t.named (t.raised q θ)) := by
  refine hr.feasible_of_raised hw heq he.lt hθ ?_ ?_
  · intro i h0 hi
    exact le_trans (mul_nonpos_of_nonpos_of_nonneg (hall i h0 hi) hθ)
      (hr.canonical.rhs_nonneg h0 hi)
  · intro j _ hj
    exact (named_columnName hr.canonical.distinct hj).symm

end Reaches

/-- A point and a direction in which only the entering column and basic ones take part. -/
theorem Enters.named_base (he : t.Enters rule q) (ht : t.Canonical) :
    t.named (t.spread t.rhs) (t.columnName q) = 0 ∧ t.named (t.ray q) (t.columnName q) = 1 := by
  rw [named_columnName ht.distinct he.lt, named_columnName ht.distinct he.lt, ray, if_pos rfl]
  rw [spread_of_nonbasic _ fun i => he.not_basic ht, spread_of_nonbasic _ fun i => he.not_basic ht]
  exact ⟨rfl, add_zero 1⟩

theorem Canonical.named_eq_zero (ht : t.Canonical) (hj : j < t.rhsColumn) (hne : j ≠ q)
    (hbasic : some (t.columnName j) ∉ t.basicVariables) :
    t.named (t.spread t.rhs) (t.columnName j) = 0 ∧ t.named (t.ray q) (t.columnName j) = 0 := by
  have hout : ∀ i, i < t.rows.length → t.basicColumn? i ≠ some j := fun i =>
    not_basic_of_not_mem hbasic
  rw [named_columnName ht.distinct hj, named_columnName ht.distinct hj, ray, if_neg hne]
  rw [spread_of_nonbasic _ hout, spread_of_nonbasic _ hout]
  exact ⟨rfl, add_zero 0⟩

end Tableau

/-- A run of a well-formed program that ends with an unbounded verdict is right. -/
theorem Settings.unbounded_sound (s : Settings) (p : Program) (hw : p.WellFormed)
    {steps : List Step} (hrun : s.convertTo (.program p) .solution = .ok steps) {e : Entering}
    (hlast : finalState? steps = some (.unbounded e)) : ∃ std, e.Unbounded p std := by
  cases Program.becomes_of_convertTo hw hrun hlast with
  | tableau hstd hbecomes =>
    rename_i std
    cases hbecomes with
    | unbounded hr he hall =>
      rename_i t q
      obtain ⟨added, hform⟩ := Program.standardized_of_standardize hstd
      have ht := hr.canonical
      have hbetter : ∀ bound, ∃ θ, 0 ≤ θ ∧ p.objective.direction.Better
          (p.objective.expression.eval (t.named (t.raised q θ))) bound := by
        intro bound
        obtain ⟨θ, hθ, hb⟩ := Tableau.exists_raised_better ht hr.layout_rows_pos he bound
        obtain ⟨-, hz⟩ :=
          hr.feasible_named_raised (hform.wellFormed hw) hform.isStandard he hall hθ
        rw [hz, hr.direction] at hb
        exact ⟨θ, hθ, hform.objective ▸ hb⟩
      have hfeas : ∀ θ, 0 ≤ θ → std.Feasible (t.named (t.raised q θ)) := by
        intro θ hθ
        obtain ⟨hfeas, -⟩ :=
          hr.feasible_named_raised (hform.wellFormed hw) hform.isStandard he hall hθ
        exact hfeas
      obtain ⟨hbase, hray⟩ := he.named_base ht
      refine ⟨std, hstd, hr.mem_variableNames.mpr ⟨q, he.pos, he.lt, rfl⟩,
        ⟨t.named (t.spread t.rhs), t.named (t.ray q), hbase, hray, ?_, ?_, ?_⟩, ?_⟩
      · intro n hn hne hbasic
        obtain ⟨j, h0, hj, rfl⟩ := hr.mem_variableNames.mp hn
        exact ht.named_eq_zero hj (fun h => hne (h ▸ rfl)) hbasic
      · simpa only [Tableau.named_raised] using hfeas
      · simpa only [Tableau.named_raised] using hbetter
      · rintro ⟨bound, hbound⟩
        obtain ⟨θ, hθ, hb⟩ := hbetter bound
        exact hbound _ (hfeas θ hθ) hb

/-- Two variables, the first at most one above the second, that may both grow. -/
def Program.growth : Program where
  objective := ⟨.max, "z", .ofTerms [("x1", 1), ("x2", 1)]⟩
  constraints := [⟨.ofTerms [("x1", 1), ("x2", -1)], .atMost, 1⟩]
  declarations := ⟨[("x1", .nonNegative), ("x2", .nonNegative)]⟩

theorem Settings.unbounded_sound_growth :
    Program.growth.WellFormed ∧
      ∃ steps e, Settings.convertTo ⟨100, .bland⟩ (.program .growth) .solution = .ok steps ∧
        finalState? steps = some (.unbounded e) ∧ e.name = "x2" ∧
        ∃ std, e.Unbounded .growth std := by
  have hw : Program.growth.WellFormed := by decide +kernel
  have hrun : (Settings.convertTo ⟨100, .bland⟩ (.program .growth) .solution).map finalState? =
      .ok (some (.unbounded ⟨⟨.max, ["z", "x1", "x2", "e1", "rhs"],
        [[1, 0, -2, 1, 1], [0, 1, -1, 1, 1]], Program.growth.objective⟩, "x2"⟩)) := by
    decide +kernel
  obtain ⟨steps, hsteps, hlast⟩ := map_eq_ok.mp hrun
  exact ⟨hw, steps, _, hsteps, hlast, rfl, Settings.unbounded_sound _ _ hw hsteps hlast⟩

end ExactSimplex
