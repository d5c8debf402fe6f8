import ExactSimplex.Explained.Pivoting
import ExactSimplex.Proofs.Program.Feasible
import ExactSimplex.Proofs.Tableau.Columns

/-! Which variable enters, in a tableau of any shape: row 0 can be short or missing, and names
can come up twice. The test for an optimal tableau and the choice of a column go through the same
cells of row 0, and each rule settles one of them. -/

namespace ExactSimplex

namespace Tableau

/-- Row 0 has this cost in a decision column, and with that sign raising the variable of the
column improves the objective. -/
structure ImprovesAt (t : Tableau) (j : Nat) (cost : Rat) : Prop where
  pos : 0 < j
  lt : j < t.rhsColumn
  cell : t.cell? 0 j = some cost
  sign : t.direction = .max ∧ cost < 0 ∨ t.direction = .min ∧ 0 < cost

/-- The column that the rule settles among those that improve: the first one under Bland's rule,
and under Dantzig's the first of those whose cost is the greatest in absolute value. -/
structure Picks (t : Tableau) (rule : PivotRule) (j : Nat) (cost : Rat) : Prop where
  improves : t.ImprovesAt j cost
  first : rule = .bland → ∀ k c, t.ImprovesAt k c → j ≤ k
  steepest : rule = .dantzig → ∀ k c, t.ImprovesAt k c → c.abs ≤ cost.abs
  firstSteepest : rule = .dantzig → ∀ k c, t.ImprovesAt k c → c.abs = cost.abs → j ≤ k

end Tableau

/-! ## The scan of the costs -/

namespace PivotRule

/-- The scan for the steepest cost passes over less steep ones before it and finds none that
is steeper after it. -/
theorem foldl_steeper_split {c best : String × Rat} {cs : List (String × Rat)}
    (h : cs.foldl steeper c = best) :
    ∃ before after, c :: cs = before ++ best :: after ∧
      (∀ x ∈ before, x.2.abs < best.2.abs) ∧ ∀ x ∈ after, x.2.abs ≤ best.2.abs := by
  induction cs generalizing c with
  | nil => exact ⟨[], [], by simpa using h, by simp, by simp⟩
  | cons d cs ih =>
    obtain ⟨before, after, hsplit, hb, ha⟩ := ih h
    by_cases hcd : c.2.abs < d.2.abs
    · rw [steeper, if_pos hcd] at hsplit
      have hd : d.2.abs ≤ best.2.abs := by
        cases before with
        | nil => rw [(List.cons.inj hsplit).1]
        | cons e before => exact le_of_lt (hb d ((List.cons.inj hsplit).1 ▸ by simp))
      refine ⟨c :: before, after, by rw [hsplit]; rfl, ?_, ha⟩
      simp only [List.mem_cons, forall_eq_or_imp]
      exact ⟨lt_of_lt_of_le hcd hd, hb⟩
    · rw [steeper, if_neg hcd] at hsplit
      cases before with
      | nil =>
        obtain ⟨hc, hcs⟩ := List.cons.inj hsplit
        refine ⟨[], d :: after, by rw [hc, hcs]; rfl, by simp, ?_⟩
        simp only [List.mem_cons, forall_eq_or_imp]
        exact ⟨by rw [← hc]; exact not_lt.mp hcd, ha⟩
      | cons e before =>
        obtain ⟨he, hcs⟩ := List.cons.inj hsplit
        have hce := hb c (by simp [he])
        refine ⟨c :: d :: before, after, by rw [hcs]; rfl, ?_, ha⟩
        simp only [List.mem_cons, forall_eq_or_imp]
        exact ⟨hce, lt_of_le_of_lt (not_lt.mp hcd) hce, fun x hx => hb x (by simp [hx])⟩

theorem pickCost_split {rule : PivotRule} {costs : List (String × Rat)} {best : String × Rat}
    (h : rule.pickCost costs = some best) :
    ∃ before after, costs = before ++ best :: after ∧
      (∀ x ∈ before, rule = .dantzig ∧ x.2.abs < best.2.abs) ∧
      (rule = .dantzig → ∀ x ∈ costs, x.2.abs ≤ best.2.abs) := by
  cases costs with
  | nil => simp [pickCost] at h
  | cons c cs =>
    cases rule with
    | bland =>
      simp only [pickCost, Option.some.injEq] at h
      exact ⟨[], cs, by simp [h], by simp, by simp⟩
    | dantzig =>
      simp only [pickCost, Option.some.injEq] at h
      obtain ⟨before, after, hsplit, hb, ha⟩ := foldl_steeper_split h
      refine ⟨before, after, hsplit, fun x hx => ⟨rfl, hb x hx⟩, fun _ x hx => ?_⟩
      rw [hsplit] at hx
      rcases List.mem_append.mp hx with hx | hx
      · exact le_of_lt (hb x hx)
      · rcases List.mem_cons.mp hx with rfl | hx
        · exact le_refl _
        · exact ha x hx

end PivotRule

namespace Tableau

variable {t : Tableau} {rule : PivotRule} {j : Nat} {cost : Rat}

/-! ## The improving columns -/

/-- The decision columns that improve the objective, in order, with their costs. -/
def improvingCells (t : Tableau) : List (Nat × Rat) :=
  t.decisionRange.filterMap fun j => ((t.cell? 0 j).filter t.improves).map fun q => (j, q)

theorem improves_iff_sign : t.improves cost = true ↔
    t.direction = .max ∧ cost < 0 ∨ t.direction = .min ∧ 0 < cost := by
  cases hd : t.direction <;> simp [improves, hd]

theorem mem_improvingCells : (j, cost) ∈ t.improvingCells ↔ t.ImprovesAt j cost := by
  simp only [improvingCells, List.mem_filterMap, mem_decisionRange, Option.map_eq_some_iff,
    Option.filter_eq_some_iff, Prod.mk.injEq]
  constructor
  · rintro ⟨_, ⟨h0, hlt⟩, _, ⟨hcell, himp⟩, rfl, rfl⟩
    exact ⟨h0, hlt, hcell, improves_iff_sign.mp himp⟩
  · intro h
    exact ⟨j, ⟨h.pos, h.lt⟩, cost, ⟨h.cell, improves_iff_sign.mpr h.sign⟩, rfl, rfl⟩

theorem improvingCells_sorted (t : Tableau) : t.improvingCells.Pairwise fun a b => a.1 < b.1 := by
  refine List.pairwise_filterMap.mpr ((List.pairwise_lt_range' 1).imp ?_)
  intro j k hjk a ha b hb
  obtain ⟨_, -, rfl⟩ := Option.map_eq_some_iff.mp ha
  obtain ⟨_, -, rfl⟩ := Option.map_eq_some_iff.mp hb
  exact hjk

/-- The costs that the choice goes through are those of the improving columns. -/
theorem improvingCosts_eq (t : Tableau) :
    t.improvingCosts = t.improvingCells.map fun c => (t.columnName c.1, c.2) := by
  unfold improvingCosts reducedCosts improvingCells
  cases hrows : t.rows with
  | nil => simp [cell?, hrows]
  | cons costs rest =>
    simp only [decisionColumns_eq, List.filterMap_map, List.filter_filterMap, List.map_filterMap]
    refine List.filterMap_congr fun j _ => ?_
    have hcell : t.cell? 0 j = costs[j]? := by simp [cell?, hrows]
    simp only [Function.comp_apply, hcell]
    cases costs[j]? with
    | none => rfl
    | some q => by_cases hq : t.improves q = true <;> simp [Option.filter, hq]

/-- A tableau is optimal when no decision column improves the objective. -/
theorem isOptimal_iff_improvesAt : t.isOptimal = true ↔ ∀ j cost, ¬ t.ImprovesAt j cost := by
  have hnil : t.isOptimal = true ↔ t.improvingCosts = [] := by simp [isOptimal, improvingCosts]
  rw [hnil, improvingCosts_eq, List.map_eq_nil_iff, List.eq_nil_iff_forall_not_mem, Prod.forall]
  exact forall₂_congr fun j cost => not_congr mem_improvingCells

/-! ## The choice -/

theorem entering?_picks {name : String} (h : t.entering? rule = some (name, cost)) :
    ∃ j, t.Picks rule j cost ∧ name = t.columnName j := by
  obtain ⟨before, after, hsplit, hbefore, hbest⟩ := PivotRule.pickCost_split h
  rw [improvingCosts_eq] at hsplit hbest
  -- The picked cost is that of some column in the increasing list of improving ones.
  obtain ⟨cells, others, hcells, rfl, hothers⟩ := List.map_eq_append_iff.mp hsplit
  obtain ⟨⟨j, q⟩, later, rfl, hpair, -⟩ := List.map_eq_cons_iff.mp hothers
  obtain ⟨hname, rfl⟩ := Prod.mk.inj hpair
  have hsorted := t.improvingCells_sorted
  rw [hcells] at hsorted
  obtain ⟨-, hfrom, -⟩ := List.pairwise_append.mp hsorted
  -- A column that improves and comes before the picked one is among those passed over.
  have hpassed : ∀ k c, t.ImprovesAt k c → ¬ j ≤ k → rule = .dantzig ∧ c.abs < q.abs := by
    intro k c hk hbound
    have hmem := mem_improvingCells.mpr hk
    rw [hcells] at hmem
    rcases List.mem_append.mp hmem with hmem | hmem
    · exact hbefore (t.columnName k, c) (List.mem_map_of_mem hmem)
    · rcases List.mem_cons.mp hmem with heq | hmem
      · exact absurd (Prod.mk.inj heq).1.ge hbound
      · exact absurd ((List.pairwise_cons.mp hfrom).1 _ hmem).le hbound
  refine ⟨j, ⟨mem_improvingCells.mp (by simp [hcells]), ?_, ?_, ?_⟩, hname.symm⟩
  · rintro rfl k c hk
    exact Decidable.byContradiction fun hbound => nomatch (hpassed k c hk hbound).1
  · intro hrule k c hk
    exact hbest hrule (t.columnName k, c) (List.mem_map_of_mem (mem_improvingCells.mpr hk))
  · intro _ k c hk heq
    exact Decidable.byContradiction fun hbound => (hpassed k c hk hbound).2.ne heq

/-- The step that picks the entering variable finds precisely the optimal tableaux optimal, those in
which no decision column improves the objective; in every other one it picks the variable of the
column that the rule settles. -/
theorem pickEnteringStep_picks (t : Tableau) (rule : PivotRule) :
    ((t.pickEnteringStep rule).result = .optimal t ↔ t.isOptimal = true) ∧
    (t.isOptimal = true ↔ ∀ j cost, ¬ t.ImprovesAt j cost) ∧
    (t.isOptimal = true ∨ ∃ j cost name, t.Picks rule j cost ∧ t.columns[j]? = some name ∧
      (t.pickEnteringStep rule).result = .entering ⟨t, name⟩) := by
  refine ⟨?_, isOptimal_iff_improvesAt, ?_⟩
  · rw [← (entering?_eq_none : t.entering? rule = none ↔ _), pickEnteringStep]
    cases t.entering? rule with
    | none => exact iff_of_true rfl rfl
    | some best => exact iff_of_false nofun nofun
  · rw [← (entering?_eq_none : t.entering? rule = none ↔ _), pickEnteringStep]
    cases h : t.entering? rule with
    | none => exact .inl rfl
    | some best =>
      obtain ⟨j, hpicks, hname⟩ := entering?_picks h
      have hcolumn := columns_getElem? (lt_columns_length hpicks.improves.lt)
      exact .inr ⟨j, best.2, best.1, hpicks, hname ▸ hcolumn, rfl⟩

end Tableau

end ExactSimplex
