import ExactSimplex.Proofs.Engine.Progress
import ExactSimplex.Proofs.Mirror.Pivoting
import ExactSimplex.Proofs.Solution.Optimality

/-! A program and its mirror image run in lockstep. Each conversion does with the image of a state
what it does with the state, in the mirror; so by induction on the steps that are left the two runs
make corresponding steps and end in the same way, and since an iteration is such a run itself, so do
the runs that iterate. -/

namespace ExactSimplex

variable {p : Program} {t : Tableau} {state : State} {s : Settings} {rule : PivotRule}

/-! ## Conversions -/

theorem Program.standardize_mirror (p : Program) :
    p.mirror.standardize = p.standardize.map Program.mirror := by
  unfold standardize
  rw [show p.mirror.firstStrict? = p.firstStrict? from rfl]
  cases p.firstStrict? <;> rfl

theorem Program.standardizeStep_mirror (p : Program) :
    Alike Step.Mirrors p.standardizeStep p.mirror.standardizeStep :=
  .of_map p.standardize_mirror fun _ => Step.mirrors_plain

theorem Tableau.layout_mirror (p : Program) : layout p.mirror = (layout p).mirror := by
  have hcosts : objectiveRow p.mirror.objective p.variableNames =
      mirrorCosts (objectiveRow p.objective p.variableNames) := by
    simp [objectiveRow, mirrorCosts, Program.mirror, Objective.mirror, LinearForm.dense_negated]
  unfold layout
  rw [show p.mirror.variableNames = p.variableNames from rfl, hcosts]
  rfl

theorem Program.layoutStep_mirror (p : Program) :
    Alike Step.Mirrors p.layoutStep p.mirror.layoutStep := by
  have hlaid : Tableau.ofProgram p.mirror = (Tableau.ofProgram p).map Tableau.mirror := by
    unfold Tableau.ofProgram
    rw [show Tableau.firstInequality? p.mirror = Tableau.firstInequality? p from rfl]
    cases Tableau.firstInequality? p with
    | some _ => rfl
    | none => exact congrArg Except.ok (Tableau.layout_mirror p)
  exact .of_map hlaid fun _ => Step.mirrors_plain

theorem Tableau.acceptBasisStep_mirror (t : Tableau) :
    Alike Step.Mirrors t.acceptBasisStep t.mirror.acceptBasisStep := by
  rw [acceptBasisStep, acceptBasisStep, startFailure?_mirror]
  cases t.startFailure? with
  | some e => exact .error e
  | none => exact .ok Step.mirrors_plain

theorem Tableau.pickEnteringStep_mirror (t : Tableau) (rule : PivotRule) :
    (t.pickEnteringStep rule).Mirrors (t.mirror.pickEnteringStep rule) := by
  rw [pickEnteringStep, pickEnteringStep, entering?_mirror]
  cases t.entering? rule <;> exact Step.mirrors_plain

theorem Entering.findLeavingStep_mirror {e : Entering}
    (hobj : e.tableau.isUnitColumn 0 0 = true) (rule : PivotRule) :
    Alike Step.Mirrors (e.findLeavingStep rule) (e.mirror.findLeavingStep rule) := by
  have hratios : e.mirror.tableau.ratioTest e.mirror.name = e.tableau.ratioTest e.name :=
    Tableau.ratioTest_mirror e.tableau e.name
  have hchoice : ∀ ratios, e.mirror.tableau.chooseLeaving rule ratios =
      e.tableau.chooseLeaving rule ratios := Tableau.chooseLeaving_mirror hobj rule
  simp only [findLeavingStep, hratios, hchoice]
  cases e.tableau.ratioTest e.name with
  | error f => exact .error f
  | ok ratios =>
    simp only [Except.bind, bind]
    cases e.tableau.chooseLeaving rule ratios with
    | error f => exact .error f
    | ok choice => cases choice <;> exact .ok Step.mirrors_plain

theorem Pivoted.resumeStep_mirror (p : Pivoted) : p.resumeStep.Mirrors p.mirror.resumeStep :=
  Step.mirrors_plain

theorem Leaving.pivotStep_mirror {l : Leaving} (hobj : l.tableau.isUnitColumn 0 0 = true)
    (hrow : 0 < l.row) (hcolumn : ∀ column ∈ l.tableau.column? l.entering, 0 < column) :
    Alike Step.Mirrors l.pivotStep l.mirror.pivotStep :=
  .of_map (pivot_mirror hobj hrow hcolumn) fun _ => Step.mirrors_plain

theorem Tableau.readSolutionStep_mirror {sol : Solution} (hobj : t.isUnitColumn 0 0 = true)
    (hn : 0 < t.rhsColumn) (h : t.readSolution = .ok sol) :
    Alike Step.Mirrors t.readSolutionStep t.mirror.readSolutionStep := by
  rw [readSolutionStep, readSolutionStep, h, readSolution_mirror hobj hn h]
  exact .ok Step.mirrors_plain

/-! ## States of a run -/

/-- What the next conversion has to know of a state to do the same in the mirror. -/
def State.Reflects : State → Prop
  | entering e => e.tableau.isUnitColumn 0 0 = true
  | leaving l => l.tableau.isUnitColumn 0 0 = true ∧ 0 < l.row ∧
      ∀ column ∈ l.tableau.column? l.entering, 0 < column
  | optimal t => t.isUnitColumn 0 0 = true ∧ 0 < t.rhsColumn ∧ ∃ sol, t.readSolution = .ok sol
  | _ => True

theorem Program.Becomes.reflects (hw : p.WellFormed) (h : p.Becomes rule state) :
    state.Reflects := by
  cases h with
  | program => trivial
  | standard => trivial
  | tableau hstd h =>
    obtain ⟨added, hform⟩ := standardized_of_standardize hstd
    cases h with
    | entering hr => exact hr.canonical.objectiveColumn
    | leaving hr he hname hl =>
      refine ⟨hr.canonical.objectiveColumn, hl.pos, fun column hcolumn => ?_⟩
      rw [hname, Tableau.column?_columnName hr.canonical.distinct he.lt] at hcolumn
      exact Option.some.inj hcolumn ▸ he.pos
    | optimal hr =>
      obtain ⟨sol, hread, -⟩ := hr.readSolution_isOk (hform.wellFormed hw) hform.isStandard
      exact ⟨hr.canonical.objectiveColumn, hr.layout_rhsColumn_pos, sol, hread⟩
    | _ => trivial

/-- A conversion that fits a state does the same in the mirror, and no other one does anything. -/
theorem applyWith_mirror {iterate : Tableau → Except ChainError Step} (h : state.Reflects)
    (c : Conversion) (hiterate : ∀ t, state = .basicFeasible t →
      Alike Step.Mirrors (iterate t) (iterate t.mirror)) :
    Alike Step.Mirrors (applyWith iterate rule c state)
      (applyWith iterate rule c state.mirror) := by
  cases state with
  | program p => cases c <;> first | exact p.standardizeStep_mirror.mapError _ | exact .error _
  | standardProgram p => cases c <;> first | exact p.layoutStep_mirror.mapError _ | exact .error _
  | unknownTableau t =>
    cases c <;> first | exact t.acceptBasisStep_mirror.mapError _ | exact .error _
  | basicFeasible t =>
    cases c <;> first
      | exact hiterate t rfl
      | exact .ok (t.pickEnteringStep_mirror rule)
      | exact .error _
  | entering e =>
    cases c <;> first
      | exact (Entering.findLeavingStep_mirror h rule).mapError _
      | exact .error _
  | leaving l =>
    obtain ⟨hobj, hrow, hcolumn⟩ := h
    cases c <;> first
      | exact (Leaving.pivotStep_mirror hobj hrow hcolumn).mapError _
      | exact .error _
  | pivoted p => cases c <;> first | exact .ok p.resumeStep_mirror | exact .error _
  | optimal t =>
    obtain ⟨hobj, hn, sol, hread⟩ := h
    cases c <;> first
      | exact (Tableau.readSolutionStep_mirror hobj hn hread).mapError _
      | exact .error _
  | unbounded e => cases c <;> exact .error _
  | solution sol => cases c <;> exact .error _

/-! ## Runs -/

section

variable {applier : Applier} {P : State → Prop} {steps steps' : List Step}

/-- Induction on the steps that are left: the runs plan the same conversion, since the kinds are the
same, and go on from a state and its image. -/
theorem driveTowards_mirror
    (hstep : ∀ c state, P state → Alike Step.Mirrors (applier c state) (applier c state.mirror))
    (hkeep : ∀ c state step, P state → applier c state = .ok step → P step.result)
    (limit : Nat) (goal : StateKind) (targets : List StateKind) (budget : Nat) (hi : P state) :
    Alike (List.Forall₂ Step.Mirrors) (driveTowards applier limit goal targets budget state)
      (driveTowards applier limit goal targets budget state.mirror) := by
  induction budget generalizing state with
  | zero =>
    rw [driveTowards_eq, driveTowards_eq, State.mirror_kind]
    split
    · exact .ok .nil
    · exact .error _
  | succ budget ih =>
    rw [driveTowards_eq, driveTowards_eq, State.mirror_kind]
    split
    · exact .ok .nil
    · cases nextConversion state.kind goal with
      | error e => exact .error e
      | ok c =>
        refine (hstep c state hi).bind fun step step' hok hmirrors => ?_
        rw [hmirrors.result]
        exact (ih (hkeep c state step hi hok)).map fun _ _ => .cons hmirrors

theorem finalState?_mirror (h : List.Forall₂ Step.Mirrors steps steps') :
    finalState? steps' = (finalState? steps).map State.mirror := by
  induction h with
  | nil => rfl
  | cons hstep hsteps ih =>
    cases hsteps with
    | nil => exact congrArg some hstep.result
    | cons => exact ih

theorem iterationResult_mirror (final : Option State) :
    iterationResult (final.map State.mirror) = (iterationResult final).map State.mirror := by
  cases final with
  | none => rfl
  | some state => cases state <;> rfl

end

namespace Settings

/-- The run inside an iteration makes no iterations. -/
theorem innerApply_mirror (hw : p.WellFormed) (c : Conversion) (h : p.Becomes s.rule state) :
    Alike Step.Mirrors (s.innerApply c state) (s.innerApply c state.mirror) :=
  applyWith_mirror (h.reflects hw) c fun _ _ => .error _

theorem iterate_mirror (hw : p.WellFormed) (h : p.Becomes s.rule (.basicFeasible t)) :
    Alike Step.Mirrors (s.iterate t) (s.iterate t.mirror) := by
  have hrun := driveTowards_mirror (P := p.Becomes s.rule)
    (fun c _ => innerApply_mirror hw c)
    (fun _ _ _ hb happ => hb.applied hw (applied_of_innerApply happ).1) s.maxSteps .pivoted
    [.pivoted, .optimal, .unbounded] s.maxSteps h
  refine hrun.bind fun steps steps' _ hsteps => ?_
  have hfinal : steps'.getLast?.map Step.result =
      (steps.getLast?.map Step.result).map State.mirror := finalState?_mirror hsteps
  rw [hfinal, iterationResult_mirror]
  cases iterationResult (steps.getLast?.map Step.result) with
  | error e => exact .error e
  | ok result => exact .ok (.mk hsteps)

theorem apply_mirror (hw : p.WellFormed) (c : Conversion) (h : p.Becomes s.rule state) :
    Alike Step.Mirrors (s.apply c state) (s.apply c state.mirror) :=
  applyWith_mirror (h.reflects hw) c fun _ ht => iterate_mirror hw (ht ▸ h)

/-- Minimizing is maximizing in the mirror: from a well-formed program and from its image, whatever
the rule, the limit and the target are, both runs fail with the same error or both succeed, step by
step with the same names and with images of the states, and so do the finer steps of their
iterations. -/
theorem convertTo_mirror (s : Settings) (p : Program) (hw : p.WellFormed) (target : StateKind) :
    Alike (List.Forall₂ Step.Mirrors) (s.convertTo (.program p) target)
      (s.convertTo (.program p.mirror) target) :=
  driveTowards_mirror (P := p.Becomes s.rule) (fun c _ => apply_mirror hw c)
    (fun _ _ _ hb happ => hb.applied hw (applyWith_eq_ok happ)) s.maxSteps target [target]
    s.maxSteps .program

/-- The mirror image of the two products has the same solution, with the value -36. -/
theorem convertTo_mirror_plants :
    Program.plants.WellFormed ∧ ∃ steps steps',
      Settings.convertTo ⟨100, .dantzig⟩ (.program .plants) .solution = .ok steps ∧
      Settings.convertTo ⟨100, .dantzig⟩ (.program Program.plants.mirror) .solution =
        .ok steps' ∧
      List.Forall₂ Step.Mirrors steps steps' ∧
      finalState? steps' = some (.solution { Solution.plants with objectiveValue := -36 }) := by
  have hw : Program.plants.WellFormed := by decide +kernel
  have hrun : (Settings.convertTo ⟨100, .dantzig⟩ (.program .plants) .solution).map finalState? =
      .ok (some (.solution .plants)) := by decide +kernel
  obtain ⟨steps, hsteps, hlast⟩ := map_eq_ok.mp hrun
  have hmirror := convertTo_mirror ⟨100, .dantzig⟩ .plants hw .solution
  rw [hsteps] at hmirror
  generalize hrun' : Settings.convertTo ⟨100, .dantzig⟩ (.program Program.plants.mirror) .solution =
    result at hmirror
  cases hmirror with
  | ok hsteps' =>
    refine ⟨hw, steps, _, hsteps, rfl, hsteps', ?_⟩
    rw [finalState?_mirror hsteps', hlast]
    rfl

end Settings

end ExactSimplex
