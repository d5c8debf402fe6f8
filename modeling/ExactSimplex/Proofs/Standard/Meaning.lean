import ExactSimplex.Proofs.Program.WellFormed
import ExactSimplex.Proofs.Standard.Closing

/-! What standard form makes of a program: the same objective, closed constraints and the
new variables after the declared ones. It is well-formed when the program is, and its
solutions are the points of the program, with `>=` read as `<=`. -/

namespace ExactSimplex

/-- The program in standard form, with its new variables. -/
structure Program.Standardized (p std : Program) (added : List String) : Prop where
  objective : std.objective = p.objective
  closes : Standard.Closes (p.objective.goal :: p.variableNames) p.constraints std.constraints added
  entries : std.declarations.entries =
    p.declarations.entries ++ added.map fun name => (name, .nonNegative)
  equal : ∀ c ∈ std.constraints, c.relation = .equal

namespace Program

variable {p std : Program} {added : List String} {v w : String → Rat}

theorem firstStrict?_eq_none : p.firstStrict? = none ↔ p.hasStrict = false := by
  rw [firstStrict?, Option.map_eq_none_iff,
    find?_zipIdx_eq_none (f := fun c : Constraint => c.relation.isStrict)]
  simp [hasStrict]

/-- The variable that each constraint gains in standard form. -/
def gained (p : Program) : List (Option String) :=
  Standard.gained (p.objective.goal :: p.variableNames) p.constraints

/-- The program with the constraints closed and the new variables declared. -/
def closed (p : Program) : Program where
  objective := p.objective
  constraints := p.constraints.zipWith Standard.closeBy p.gained
  declarations :=
    ⟨p.declarations.entries ++ p.gained.reduceOption.map fun name => (name, .nonNegative)⟩

theorem standardize_eq_ok_iff :
    p.standardize = .ok std ↔ p.hasStrict = false ∧ std = p.closed := by
  obtain ⟨hconstraints, hentries⟩ :=
    Standard.closeAll_eq p.objective.goal p.declarations p.constraints
  have hclosed : p.closed = { p with
      constraints := (Standard.closeAll p.objective.goal p.declarations p.constraints).1
      declarations := (Standard.closeAll p.objective.goal p.declarations p.constraints).2 } := by
    rw [closed, gained, variableNames, ← hconstraints, ← hentries]
  rw [← firstStrict?_eq_none, standardize, hclosed]
  cases p.firstStrict? <;> simp [eq_comm]

/-- Without strict relations there is a standard form. -/
theorem standardize_isOk (h : p.hasStrict = false) : ∃ std, p.standardize = .ok std :=
  ⟨_, standardize_eq_ok_iff.mpr ⟨h, rfl⟩⟩

theorem isStrict_eq_false (h : p.hasStrict = false) :
    ∀ c ∈ p.constraints, c.relation.isStrict = false :=
  fun c hc => Bool.not_eq_true _ ▸ List.any_eq_false.mp h c hc

theorem standardized_gained (h : p.standardize = .ok std) :
    p.Standardized std p.gained.reduceOption := by
  obtain ⟨hlax, rfl⟩ := standardize_eq_ok_iff.mp h
  obtain ⟨hconstraints, -⟩ :=
    Standard.closeAll_eq p.objective.goal p.declarations p.constraints
  refine ⟨rfl, Standard.closes_gained _ _, rfl, ?_⟩
  rw [closed, gained, variableNames, ← hconstraints]
  exact Standard.closeAll_equal (isStrict_eq_false hlax)

theorem standardized_of_standardize (h : p.standardize = .ok std) :
    ∃ added, p.Standardized std added := ⟨_, standardized_gained h⟩

/-- The names of a constraint are taken when the constraints are closed. -/
theorem WellFormed.taken (hw : p.WellFormed) :
    ∀ c ∈ p.constraints, ∀ n ∈ c.expression.names, n ∈ p.objective.goal :: p.variableNames :=
  fun _ hc _ hn => List.mem_cons_of_mem _ (hw.constraint_names_mem hc hn)

namespace Standardized

theorem variableNames (h : p.Standardized std added) :
    std.variableNames = p.variableNames ++ added := by
  simp [Program.variableNames, Declarations.names, h.entries, Function.comp_def]

theorem nodup (h : p.Standardized std added) (hw : p.WellFormed) :
    (p.objective.goal :: std.variableNames).Nodup := by
  rw [h.variableNames, ← List.cons_append]
  exact h.closes.nodup (List.nodup_cons.mpr ⟨hw.objectiveFree, hw.distinct⟩)

theorem mem_added (h : p.Standardized std added) (hw : p.WellFormed) {name : String} :
    name ∈ added ↔ name ∈ std.variableNames ∧ name ∉ p.variableNames := by
  obtain ⟨-, hd⟩ := List.nodup_cons.mp (h.nodup hw)
  rw [h.variableNames] at hd ⊢
  obtain ⟨-, -, hne⟩ := List.nodup_append.mp hd
  have hdisjoint : name ∈ p.variableNames → name ∉ added := fun hp ha => hne name hp name ha rfl
  rw [List.mem_append]
  tauto

theorem wellFormed (h : p.Standardized std added) (hw : p.WellFormed) : std.WellFormed where
  distinct := (List.nodup_cons.mp (h.nodup hw)).2
  reduced := by
    have hr := hw.reduced
    simp only [expressions, List.mem_cons, List.mem_map, forall_eq_or_imp,
      forall_exists_index, and_imp, forall_apply_eq_imp_iff₂] at hr ⊢
    exact ⟨h.objective ▸ hr.1, h.closes.reduced hr.2⟩
  declared name := by
    have hp := hw.declared name
    rw [mem_usedVariables_iff] at hp ⊢
    rw [h.objective, h.closes.mem_names, h.variableNames, List.mem_append, ← hp, or_assoc]
  objectiveFree := h.objective ▸ (List.nodup_cons.mp (h.nodup hw)).1

theorem isStandard (h : p.Standardized std added) : std.isStandard = true :=
  List.all_eq_true.mpr fun c hc => beq_iff_eq.mpr (h.equal c hc)

/-- A feasible point of the standard form keeps the constraints of the program. -/
theorem holds (h : p.Standardized std added) (hw : p.WellFormed)
    (hadded : ∀ n ∈ added, 0 ≤ w n) (hsat : std.Satisfied w) :
    ∀ c ∈ p.constraints, c.relation.closed.Holds (c.expression.eval w) c.rhs :=
  h.closes.holds hw.taken hadded hsat

theorem extend (h : p.Standardized std added) (hw : p.WellFormed)
    (hv : ∀ c ∈ p.constraints, c.relation.closed.Holds (c.expression.eval v) c.rhs) :
    ∃ w, (∀ n ∈ p.variableNames, w n = v n) ∧ (∀ n ∈ added, 0 ≤ w n) ∧ std.Satisfied w := by
  obtain ⟨w, hagree, hadded, hsat⟩ := h.closes.extend hw.taken hv
  exact ⟨w, fun n hn => hagree n (List.mem_cons_of_mem _ hn), hadded, hsat⟩

end Standardized

/-! ## Programs to which only slack is added -/

theorem respected_iff (h : ∀ d ∈ p.declarations.entries, d.2 = .nonNegative) :
    p.Respected v ↔ ∀ n ∈ p.variableNames, 0 ≤ v n := by
  rw [variableNames, Declarations.names, List.forall_mem_map]
  refine forall₂_congr ?_
  intro d hd
  rw [h d hd, Restriction.Allows]

/-- Constraints that closing does not turn around are kept as they are. -/
theorem closed_iff_satisfied
    (h : ∀ c ∈ p.constraints, c.relation = .atMost ∨ c.relation = .equal) :
    (∀ c ∈ p.constraints, c.relation.closed.Holds (c.expression.eval v) c.rhs) ↔
      p.Satisfied v := by
  refine forall₂_congr ?_
  intro c hc
  have hclosed : c.relation.closed = c.relation := by
    rcases h c hc with h | h <;> rw [h] <;> rfl
  rw [hclosed, Constraint.Holds]

theorem Standardized.feasible_extends (h : p.Standardized std added) (hw : p.WellFormed)
    (hrel : ∀ c ∈ p.constraints, c.relation = .atMost ∨ c.relation = .equal)
    (hsat : p.Satisfied v) (hpos : ∀ n ∈ p.variableNames, 0 ≤ v n) :
    ∃ w, (∀ n ∈ p.variableNames, w n = v n) ∧ std.Feasible w := by
  obtain ⟨w, hagree, hadded, hstd⟩ := h.extend hw ((closed_iff_satisfied hrel).mpr hsat)
  refine ⟨w, hagree, ⟨fun n hn => ?_, hstd⟩⟩
  rw [h.variableNames] at hn
  rcases List.mem_append.mp hn with hn | hn
  · rw [hagree n hn]; exact hpos n hn
  · exact hadded n hn

/-- An optimal point of the standard form, restricted to the variables of the program, is
one of the program. -/
theorem Standardized.restricts (h : p.Standardized std added) (hw : p.WellFormed)
    (hrel : ∀ c ∈ p.constraints, c.relation = .atMost ∨ c.relation = .equal)
    (hnonneg : ∀ d ∈ p.declarations.entries, d.2 = .nonNegative) {z : Rat}
    (hv : std.Feasible v) (hz : z = p.objective.expression.eval v)
    (hbest : ∀ w, std.Feasible w →
      ¬ p.objective.direction.Better (p.objective.expression.eval w) z)
    (hagree : ∀ n ∈ p.variableNames, w n = v n) :
    p.Satisfied w ∧ p.Respected w ∧ p.objective.expression.eval w = z ∧
      ∀ u, p.Satisfied u → p.Respected u →
        ¬ p.objective.direction.Better (p.objective.expression.eval u) z := by
  have hsub : ∀ n ∈ p.variableNames, n ∈ std.variableNames := by
    intro n hn
    rw [h.variableNames]; exact List.mem_append_left _ hn
  refine ⟨?_, ?_, ?_, fun u hu hpos => ?_⟩
  · have hadded : ∀ n ∈ added, 0 ≤ v n := fun n hn =>
      hv.nonneg n ((h.mem_added hw).mp hn).1
    have hsat := (closed_iff_satisfied hrel).mp (h.holds hw hadded hv.satisfied)
    intro c hc
    rw [Constraint.Holds, hw.eval_congr hagree hc]
    exact hsat c hc
  · refine (respected_iff hnonneg).mpr ?_
    intro n hn
    rw [hagree n hn]
    exact hv.nonneg n (hsub n hn)
  · rw [hz, hw.objective_eval_congr hagree]
  · obtain ⟨u', hagree', hfeas⟩ :=
      h.feasible_extends hw hrel hu ((respected_iff hnonneg).mp hpos)
    rw [← hw.objective_eval_congr hagree']
    exact hbest u' hfeas

/-! ## All programs without strict relations -/

/-- Standard form keeps the points of a program without strict relations, with `>=` read as
`<=`: they are the points that values for the new variables, none negative, extend to
solutions of the equalities. -/
theorem closed_iff_extends (p : Program) (hw : p.WellFormed) (hlax : p.hasStrict = false) :
    ∃ std, p.standardize = .ok std ∧ ∀ v : String → Rat,
      (∀ c ∈ p.constraints, c.relation.closed.Holds (c.expression.eval v) c.rhs) ↔
        ∃ w : String → Rat, (∀ n ∈ p.variableNames, w n = v n) ∧
          (∀ n ∈ std.variableNames, n ∉ p.variableNames → 0 ≤ w n) ∧ std.Satisfied w := by
  obtain ⟨std, hstd⟩ := standardize_isOk hlax
  obtain ⟨added, h⟩ := standardized_of_standardize hstd
  refine ⟨std, hstd, fun v => ⟨fun hv => ?_, ?_⟩⟩
  · obtain ⟨w, hagree, hadded, hsat⟩ := h.extend hw hv
    exact ⟨w, hagree, fun n hn hnew => hadded n ((h.mem_added hw).mpr ⟨hn, hnew⟩), hsat⟩
  · rintro ⟨w, hagree, hadded, hsat⟩ c hc
    have hold := h.holds hw (fun n hn => ((h.mem_added hw).mp hn).elim (hadded n)) hsat c hc
    rwa [hw.eval_congr hagree hc] at hold

/-- A program whose only variable has a lower and an upper bound. -/
def between : Program where
  objective := ⟨.max, "z", .ofTerms [("x1", 1)]⟩
  constraints := [⟨.ofTerms [("x1", 1)], .atLeast, 1⟩, ⟨.ofTerms [("x1", 1)], .atMost, 3⟩]
  declarations := ⟨[("x1", .nonNegative)]⟩

theorem closed_iff_extends_between :
    between.WellFormed ∧ between.hasStrict = false ∧
      ∃ std, between.standardize = .ok std ∧ ∀ v : String → Rat,
        (∀ c ∈ between.constraints, c.relation.closed.Holds (c.expression.eval v) c.rhs) ↔
          ∃ w : String → Rat, (∀ n ∈ between.variableNames, w n = v n) ∧
            (∀ n ∈ std.variableNames, n ∉ between.variableNames → 0 ≤ w n) ∧ std.Satisfied w :=
  have hw : between.WellFormed := by decide +kernel
  have hlax : between.hasStrict = false := by decide +kernel
  ⟨hw, hlax, closed_iff_extends between hw hlax⟩

/-- Read as it is written, `>=` is not kept: a point between the bounds satisfies the program
and extends to no solution of its standard form. -/
theorem atLeast_not_kept :
    between.WellFormed ∧ between.hasStrict = false ∧ between.Satisfied (fun _ => 2) ∧
      ∀ std, between.standardize = .ok std →
        ¬ ∃ w : String → Rat, (∀ n ∈ between.variableNames, w n = 2) ∧
          (∀ n ∈ std.variableNames, n ∉ between.variableNames → 0 ≤ w n) ∧ std.Satisfied w := by
  have hw : between.WellFormed := by decide +kernel
  refine ⟨hw, by decide +kernel, ?_, ?_⟩
  · simp only [Satisfied, Constraint.Holds]
    decide +kernel
  · rintro std hstd ⟨w, hagree, hadded, hsat⟩
    obtain ⟨added, h⟩ := standardized_of_standardize hstd
    have hold := h.holds hw (fun n hn => ((h.mem_added hw).mp hn).elim (hadded n)) hsat
      ⟨.ofTerms [("x1", 1)], .atLeast, 1⟩ (by simp [between])
    rw [hw.eval_congr hagree (by simp [between])] at hold
    revert hold
    decide +kernel

end Program

end ExactSimplex
