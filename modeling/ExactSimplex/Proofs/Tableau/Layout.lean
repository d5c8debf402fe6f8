import Mathlib.Algebra.BigOperators.Fin
import ExactSimplex.Proofs.Program.WellFormed
import ExactSimplex.Proofs.Tableau.Columns
import ExactSimplex.Proofs.Traversal
import ExactSimplex.Tableau.Layout

/-! The tableau of a program in standard form. Its solutions are the points that satisfy the
program, with the objective's value in the first column. Points give values to names and
solutions to columns; the names of a scoped program lead from one to the other. -/

namespace ExactSimplex.Tableau

/-- The value of a variable when `x` gives values to the columns. -/
def named (t : Tableau) (x : Nat → Rat) (name : String) : Rat := ((t.column? name).map x).getD 0

/-- Values for the columns, that of the objective first. -/
def placed (t : Tableau) (z : Rat) (v : String → Rat) (j : Nat) : Rat :=
  if j = 0 then z else v (t.columnName j)

variable {p : Program} {t : Tableau} {x : Nat → Rat} {v : String → Rat} {i j : Nat}

theorem named_columnName (hd : t.columns.dropLast.Nodup) (hj : j < t.rhsColumn) :
    t.named x (t.columnName j) = x j := by
  simp [named, column?_columnName hd hj]

/-! ## Entries -/

theorem layout_rhsColumn (p : Program) : (layout p).rhsColumn = p.variableNames.length + 1 := by
  simp [rhsColumn]

theorem layout_columnName (hj : j < p.variableNames.length) :
    (layout p).columnName (j + 1) = p.variableNames[j] := by
  simp [columnName, layout, List.getElem?_append_left, hj]

theorem layout_decisionNames (p : Program) :
    (layout p).decisionRange.map (layout p).columnName = p.variableNames := by
  refine List.ext_getElem (by simp [decisionRange, layout_rhsColumn]) ?_
  intro j _ hj
  simp only [decisionRange, List.getElem_map, List.getElem_range', Nat.one_mul, Nat.add_comm 1]
  exact layout_columnName hj

theorem layout_entry_objective (hj : j < p.variableNames.length) :
    (layout p).entry 0 (j + 1) = -p.objective.expression.coefficient p.variableNames[j] := by
  simp [entry, cell?, layout, objectiveRow, LinearForm.dense, List.getElem?_append_left, hj]

theorem layout_entry_constraint (hi : i < p.constraints.length)
    (hj : j < p.variableNames.length) :
    (layout p).entry (i + 1) (j + 1) =
      p.constraints[i].expression.coefficient p.variableNames[j] := by
  simp [entry, cell?, layout, constraintRow, LinearForm.dense, List.getElem?_append_left, hi, hj]

theorem layout_entry_goal (hi : i < (layout p).rows.length) :
    (layout p).entry i 0 = if i = 0 then 1 else 0 := by
  cases i with
  | zero => rfl
  | succ i =>
    have hi : i < p.constraints.length := by simpa using hi
    simp [entry, cell?, layout, constraintRow, hi]

theorem layout_rhs_objective : (layout p).rhs 0 = 0 := by
  unfold rhs
  rw [layout_rhsColumn]
  simp [entry, cell?, layout, objectiveRow, LinearForm.dense]

theorem layout_rhs_constraint (hi : i < p.constraints.length) :
    (layout p).rhs (i + 1) = p.constraints[i].rhs := by
  unfold rhs
  rw [layout_rhsColumn]
  simp [entry, cell?, layout, constraintRow, LinearForm.dense, hi]

theorem layout_canonical (hw : p.WellFormed) (hf : (layout p).IsBasicFeasible) :
    (layout p).Canonical where
  rectangular := layout_rectangular p
  distinct := by
    rw [layout, List.dropLast_concat]
    exact List.nodup_cons.mpr ⟨hw.objectiveFree, hw.distinct⟩
  objectiveColumn :=
    isUnitColumn_of_entry (layout_rectangular p) (by simp) fun _ hk => layout_entry_goal hk
  feasible := hf

/-! ## Solutions -/

theorem sum_coefficients {e : LinearForm} {names : List String} (hd : names.Nodup)
    (huse : ∀ n ∈ e.names, n ∈ names)
    (hx : ∀ j (hj : j < names.length), x (j + 1) = v names[j]) :
    ∑ j : Fin names.length, e.coefficient names[j] * x (j + 1) = e.eval v := by
  rw [LinearForm.eval_eq_sum hd huse, ← Fin.sum_univ_fun_getElem]
  exact Finset.sum_congr rfl fun j _ => by rw [hx j j.2]; rfl

theorem layout_rowSum_objective (hs : p.Scoped)
    (hx : ∀ j (hj : j < p.variableNames.length), x (j + 1) = v p.variableNames[j]) :
    (layout p).rowSum 0 x = x 0 - p.objective.expression.eval v := by
  unfold rowSum
  rw [layout_rhsColumn, Finset.sum_range_succ', Finset.sum_range,
    layout_entry_goal (by simp), if_pos rfl, one_mul,
    ← sum_coefficients hs.distinct (hs.names_mem _ List.mem_cons_self) hx,
    add_comm, sub_eq_add_neg, ← Finset.sum_neg_distrib]
  congr 1
  refine Finset.sum_congr rfl ?_
  intro j _
  rw [layout_entry_objective j.2, neg_mul]
  rfl

theorem layout_rowSum_constraint (hs : p.Scoped)
    (hx : ∀ j (hj : j < p.variableNames.length), x (j + 1) = v p.variableNames[j])
    (hi : i < p.constraints.length) :
    (layout p).rowSum (i + 1) x = p.constraints[i].expression.eval v := by
  unfold rowSum
  rw [layout_rhsColumn, Finset.sum_range_succ', Finset.sum_range,
    layout_entry_goal (by simpa using hi), if_neg (by omega), zero_mul, add_zero,
    ← sum_coefficients hs.distinct
      (hs.names_mem _ (Program.expression_mem (List.getElem_mem hi))) hx]
  refine Finset.sum_congr rfl ?_
  intro j _
  rw [layout_entry_constraint hi j.2]
  rfl

/-- Values for the columns solve the tableau when the values of the names satisfy the
program and the first column holds the objective. -/
theorem layout_solvedBy_iff (hs : p.Scoped) (hstd : p.isStandard = true)
    (hx : ∀ j, 0 < j → j < (layout p).rhsColumn → x j = v ((layout p).columnName j)) :
    (layout p).SolvedBy x ↔ x 0 = p.objective.expression.eval v ∧ p.Satisfied v := by
  have hx' : ∀ j (hj : j < p.variableNames.length), x (j + 1) = v p.variableNames[j] := by
    intro j hj
    rw [hx (j + 1) (by omega) (by rw [layout_rhsColumn]; omega), layout_columnName hj]
  have hholds : ∀ i (hi : i < p.constraints.length),
      (layout p).rowSum (i + 1) x = (layout p).rhs (i + 1) ↔ p.constraints[i].Holds v := by
    intro i hi
    have heq := eq_of_beq (List.all_eq_true.mp hstd _ (List.getElem_mem hi))
    rw [layout_rowSum_constraint hs hx' hi, layout_rhs_constraint hi, Constraint.Holds, heq,
      Relation.Holds]
  have hobj : (layout p).rowSum 0 x = (layout p).rhs 0 ↔
      x 0 = p.objective.expression.eval v := by
    rw [layout_rowSum_objective hs hx', layout_rhs_objective, sub_eq_zero]
  constructor
  · intro h
    refine ⟨hobj.mp (h 0 (by simp)), fun c hc => ?_⟩
    obtain ⟨i, hi, rfl⟩ := List.getElem_of_mem hc
    exact (hholds i hi).mp (h (i + 1) (by simpa using hi))
  · rintro ⟨hz, hsat⟩ i hi
    cases i with
    | zero => exact hobj.mpr hz
    | succ i =>
      have hi : i < p.constraints.length := by simpa using hi
      exact (hholds i hi).mpr (hsat _ (List.getElem_mem hi))

/-- The same for values in a list, that of the objective first and the others as declared. -/
theorem layout_solves_iff (hs : p.Scoped) (hstd : p.isStandard = true) (z : Rat)
    (v : String → Rat) :
    (layout p).Solves (z :: p.variableNames.map v) ↔
      z = p.objective.expression.eval v ∧ p.Satisfied v := by
  rw [solves_iff_solvedBy (layout_rectangular p) (by simp)]
  refine layout_solvedBy_iff hs hstd fun j h0 hj => ?_
  obtain ⟨k, rfl⟩ := Nat.exists_eq_add_of_lt h0
  have hk : k < p.variableNames.length := by rw [layout_rhsColumn] at hj; omega
  rw [Nat.zero_add, layout_columnName hk]
  simp [hk]

/-! ## Laying out -/

theorem ofProgram_eq_ok_iff : ofProgram p = .ok t ↔ p.isStandard = true ∧ t = layout p := by
  rw [← firstInequality?_eq_none, ofProgram]
  cases firstInequality? p <;> simp [eq_comm]

theorem ofProgram_fails_iff :
    (∃ err, ofProgram p = .error err) ↔ ∃ c ∈ p.constraints, c.relation ≠ .equal := by
  have hsome : (∃ c ∈ p.constraints, c.relation ≠ .equal) ↔ p.isStandard ≠ true := by
    simp [Program.isStandard]
  rw [hsome, ne_eq, ← firstInequality?_eq_none, ofProgram]
  cases firstInequality? p <;> simp

theorem firstAt_of_ofProgram_eq_error {err : TableauError} (h : ofProgram p = .error err) :
    ∃ i c, FirstAt (fun c : Constraint => c.relation != .equal) p.constraints i c ∧
      err = .notStandardForm i c.relation := by
  unfold ofProgram at h
  split at h
  · rename_i index relation hfirst
    obtain ⟨c, hc, rfl⟩ := firstAt_of_find?_zipIdx
      (f := fun c : Constraint => c.relation != .equal) (g := Constraint.relation) hfirst
    exact ⟨index, c, hc, (Except.error.inj h).symm⟩
  · cases h

/-- A program is laid out as a tableau precisely if all its constraints are equalities, and the
tableau then says the same as the program. -/
theorem ofProgram_meaning (p : Program) (hs : p.Scoped) :
    ((∃ err, ofProgram p = .error err) ↔ ∃ c ∈ p.constraints, c.relation ≠ .equal) ∧
      (∀ err, ofProgram p = .error err →
        ∃ i c, FirstAt (fun c : Constraint => c.relation != .equal) p.constraints i c ∧
          err = .notStandardForm i c.relation) ∧
      ∀ t, ofProgram p = .ok t →
        t.Rectangular ∧ t.columns = p.objective.goal :: p.variableNames ++ ["rhs"] ∧
          t.rows.length = p.constraints.length + 1 ∧
          (∀ i, i < t.rows.length → t.cell? i 0 = some (if i = 0 then 1 else 0)) ∧
          ∀ (z : Rat) (v : String → Rat), t.Solves (z :: p.variableNames.map v) ↔
            z = p.objective.expression.eval v ∧ p.Satisfied v := by
  refine ⟨ofProgram_fails_iff, fun _ => firstAt_of_ofProgram_eq_error, fun t ht => ?_⟩
  obtain ⟨hstd, rfl⟩ := ofProgram_eq_ok_iff.mp ht
  refine ⟨layout_rectangular p, rfl, layout_rows_length p, fun i hi => ?_,
    layout_solves_iff hs hstd⟩
  rw [cell?_eq_entry (layout_rectangular p) hi (by simp), layout_entry_goal hi]

/-- A program whose variables are not declared in the order of their names, with a constraint
that lacks one of them. -/
def blend : Program where
  objective := ⟨.min, "z", .ofTerms [("x1", 2), ("x3", -1 / 2)]⟩
  constraints := [⟨.ofTerms [("x1", 1), ("x2", 1), ("x3", 1)], .equal, 10⟩,
    ⟨.ofTerms [("x2", 3), ("x1", -1)], .equal, -2⟩]
  declarations := ⟨[("x3", .nonNegative), ("x1", .nonNegative), ("x2", .unrestricted)]⟩

theorem ofProgram_meaning_blend :
    blend.Scoped ∧ ∃ t, ofProgram blend = .ok t ∧ t.Rectangular ∧
      t.columns = ["z", "x3", "x1", "x2", "rhs"] ∧
      ∀ (z : Rat) (v : String → Rat), t.Solves [z, v "x3", v "x1", v "x2"] ↔
        z = blend.objective.expression.eval v ∧ blend.Satisfied v := by
  have hw : blend.WellFormed := by decide +kernel
  have ht : ofProgram blend = .ok (layout blend) := ofProgram_eq_ok_iff.mpr ⟨by decide, rfl⟩
  obtain ⟨-, -, hmeaning⟩ := ofProgram_meaning blend hw.toScoped
  obtain ⟨hrect, hcolumns, -, -, hsolves⟩ := hmeaning _ ht
  exact ⟨hw.toScoped, _, ht, hrect, hcolumns, hsolves⟩

end ExactSimplex.Tableau
