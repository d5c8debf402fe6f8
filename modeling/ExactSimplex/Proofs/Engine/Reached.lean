import ExactSimplex.Proofs.Engine.Iteration
import ExactSimplex.Proofs.Standard.Meaning
import ExactSimplex.Proofs.Tableau.Layout

/-! The states that a run can come to. From a tableau they carry tableaux that pivots lead to,
with what was found of them on the way; from a program they come after its standard form
and the tableau of that. Every conversion that succeeds keeps this, whatever the target. -/

namespace ExactSimplex

/-- What a run under a rule can make of a tableau. -/
inductive Tableau.Becomes (rule : PivotRule) (start : Tableau) : State → Prop
  | unknown : Becomes rule start (.unknownTableau start)
  | basicFeasible {t : Tableau} : start.Reaches t → Becomes rule start (.basicFeasible t)
  | entering {t : Tableau} {q : Nat} : start.Reaches t → t.Enters rule q →
      Becomes rule start (.entering ⟨t, t.columnName q⟩)
  | leaving {l : Leaving} {q : Nat} : start.Reaches l.tableau → l.tableau.Enters rule q →
      l.entering = l.tableau.columnName q → l.tableau.Leaves rule q l.row →
      Becomes rule start (.leaving l)
  | pivoted {p : Pivoted} : start.Reaches p.tableau → Becomes rule start (.pivoted p)
  | optimal {t : Tableau} : start.Reaches t → t.isOptimal = true →
      Becomes rule start (.optimal t)
  | unbounded {t : Tableau} {q : Nat} : start.Reaches t → t.Enters rule q →
      (∀ i, 0 < i → i < t.rows.length → t.entry i q ≤ 0) →
      Becomes rule start (.unbounded ⟨t, t.columnName q⟩)
  | solution {t : Tableau} {s : Solution} : start.Reaches t → t.isOptimal = true →
      t.readSolution = .ok s → Becomes rule start (.solution s)

/-- What a run under a rule can make of a program. -/
inductive Program.Becomes (rule : PivotRule) (p : Program) : State → Prop
  | program : Becomes rule p (.program p)
  | standard {std : Program} : p.standardize = .ok std → Becomes rule p (.standardProgram std)
  | tableau {std : Program} {state : State} : p.standardize = .ok std →
      (Tableau.layout std).Becomes rule state → Becomes rule p state

variable {start t : Tableau} {p : Program} {s : Settings} {rule : PivotRule} {state : State}
  {step : Step}

/-! ## Steps -/

theorem Tableau.acceptBasisStep_eq_ok (h : t.acceptBasisStep = .ok step) :
    t.IsBasicFeasible ∧ step.result = .basicFeasible t := by
  unfold acceptBasisStep at h
  split at h
  · cases h
  · rename_i hstart
    obtain rfl := Except.ok.inj h
    exact ⟨hstart, rfl⟩

theorem Tableau.acceptBasisStep_isOk (hf : t.IsBasicFeasible) :
    ∃ step, t.acceptBasisStep = .ok step ∧ step.result = .basicFeasible t := by
  have hstart : t.startFailure? = none := hf
  exact ⟨_, by rw [acceptBasisStep, hstart], rfl⟩

theorem Tableau.Reaches.becomes_of_advances (hr : start.Reaches t) (h : t.Advances rule state) :
    start.Becomes rule state := by
  cases h with
  | optimal hopt => exact .optimal hr hopt
  | unbounded he hall => exact .unbounded hr he hall
  | exchange he hl => exact .basicFeasible (hr.exchange he.lt hl)

/-- Each conversion keeps what a run makes of a tableau that is canonical once its basis is
accepted. -/
theorem Tableau.Becomes.applied (hstart : start.IsBasicFeasible → start.Canonical)
    (h : start.Becomes s.rule state) (happ : Applied s.iterate s.rule state step) :
    start.Becomes s.rule step.result := by
  cases h with
  | unknown =>
    cases happ with
    | acceptBasis h =>
      obtain ⟨hf, hres⟩ := acceptBasisStep_eq_ok h
      exact hres ▸ .basicFeasible (.refl (hstart hf))
  | basicFeasible hr =>
    cases happ with
    | iterate h => exact hr.becomes_of_advances (Settings.advances_of_iterate hr.canonical h)
    | pickEntering =>
      rcases pickEnteringStep_spec s.rule hr.canonical.rectangular with
        ⟨hopt, hres⟩ | ⟨q, he, hres⟩
      · exact hres ▸ .optimal hr hopt
      · exact hres ▸ .entering hr he
  | entering hr he =>
    cases happ with
    | findLeaving h =>
      rcases Entering.findLeavingStep_spec ⟨_, columnName _ _⟩ s.rule hr.canonical.based
        (column?_columnName hr.canonical.distinct he.lt) with ⟨hall, hspec⟩ | ⟨r, hl, hspec⟩
      · rw [h] at hspec
        exact Except.ok.inj hspec ▸ .unbounded hr he hall
      · rw [h] at hspec
        exact Except.ok.inj hspec ▸ .leaving hr he rfl hl
  | leaving hr he hname hl =>
    cases happ with
    | pivot h =>
      have hspec := Leaving.pivotStep_spec hr.canonical he.lt hname hl
      rw [h] at hspec
      exact Except.ok.inj hspec ▸ .pivoted (hr.exchange he.lt hl)
  | pivoted hr =>
    cases happ with
    | resume => exact .basicFeasible hr
  | optimal hr hopt =>
    cases happ with
    | readSolution h =>
      obtain ⟨sol, hread, rfl⟩ := map_eq_ok.mp h
      exact .solution hr hopt hread
  | unbounded => cases happ
  | solution => cases happ

theorem Program.layoutStep_eq_ok (h : p.layoutStep = .ok step) :
    step.result = .unknownTableau (Tableau.layout p) := by
  obtain ⟨t, ht, rfl⟩ := map_eq_ok.mp h
  unfold Tableau.ofProgram at ht
  split at ht
  · cases ht
  · rw [← Except.ok.inj ht]
    rfl

theorem Program.Becomes.applied (hw : p.WellFormed) (h : p.Becomes s.rule state)
    (happ : Applied s.iterate s.rule state step) : p.Becomes s.rule step.result := by
  cases h with
  | program =>
    cases happ with
    | standardize h =>
      obtain ⟨std, hstd, rfl⟩ := map_eq_ok.mp h
      exact .standard hstd
  | standard hstd =>
    cases happ with
    | layOut h => exact .tableau hstd (layoutStep_eq_ok h ▸ .unknown)
  | tableau hstd h =>
    obtain ⟨added, hform⟩ := standardized_of_standardize hstd
    exact .tableau hstd (h.applied (Tableau.layout_canonical (hform.wellFormed hw)) happ)

/-! ## Runs -/

/-- Where a run from a well-formed program ends. -/
theorem Program.becomes_of_convertTo {final : State} {target : StateKind} {steps : List Step}
    (hw : p.WellFormed) (h : s.convertTo (.program p) target = .ok steps)
    (hfinal : finalState? steps = some final) : p.Becomes s.rule final :=
  Settings.convertToAny_invariant (fun _ _ _ hb happ => hb.applied hw (applyWith_eq_ok happ)) h
    .program hfinal

end ExactSimplex
