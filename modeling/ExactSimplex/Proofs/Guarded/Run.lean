import ExactSimplex.Proofs.Engine.Inside
import ExactSimplex.Proofs.Guarded.Pivoting

/-! Conversions and runs, made with guarded operations. Every one of them has the result of the
engine, so none meets a fault: whatever the state holds, the engine answers with steps or with a
failure of its own. -/

namespace ExactSimplex.Guarded

/-! ## The first tableau -/

def layoutStep (p : Program) : Guarded TableauError Step := do
  let t ← ofExcept (Tableau.ofProgram p)
  let table ← text t
  .ok (p.laidOutStep t table)

theorem layoutStep_eq (p : Program) : layoutStep p = ofExcept p.layoutStep := by
  unfold layoutStep Program.layoutStep
  cases Tableau.ofProgram p with
  | error e => rfl
  | ok t =>
    simp only [ofExcept_ok, ok_bind, text_eq]
    rfl

/-! ## The solution -/

def basis (t : Tableau) : Guarded SimplexError (List String) :=
  t.constraintRows.mapM fun row => do
    let basic ← basicVariable t row
    orFailure basic (.noBasicVariable row)

def readSolution (t : Tableau) : Guarded SimplexError Solution := do
  let basis ← basis t
  let values ← ofExcept (t.basicValues basis)
  let computed := t.objective.expression.eval (Tableau.valueIn values)
  let recorded := (t.rhs? 0).getD 0
  if computed = recorded then .ok ⟨t.objective.goal, computed, values, basis⟩
  else .error (.failure (.inconsistentObjective computed recorded))

def readSolutionStep (t : Tableau) : Guarded SimplexError Step :=
  (readSolution t).map Solution.readingStep

theorem basis_eq (t : Tableau) : basis t = ofExcept t.basis := by
  refine mapM_eq_ofExcept fun row => ?_
  rw [basicVariable_eq, ok_bind]
  cases t.basicVariable? row <;> rfl

theorem readSolution_eq (t : Tableau) : readSolution t = ofExcept t.readSolution := by
  unfold readSolution Tableau.readSolution
  simp only [ofExcept_bind, basis_eq]
  refine congrArg _ (funext fun basis => congrArg _ (funext fun values => ?_))
  split <;> rfl

theorem readSolutionStep_eq (t : Tableau) : readSolutionStep t = ofExcept t.readSolutionStep := by
  rw [readSolutionStep, Tableau.readSolutionStep, readSolution_eq, ofExcept_map]

/-! ## Runs -/

/-- Apply a conversion, with the given way to make an iteration. -/
def applyWith (iterate : Tableau → Guarded ChainError Step) (rule : PivotRule) :
    Conversion → State → Guarded ChainError Step
  | .standardize, .program p => ofExcept (p.standardizeStep.mapError .standardize)
  | .layOut, .standardProgram p => reported .tableau (layoutStep p)
  | .acceptBasis, .unknownTableau t => reported .simplex (acceptBasisStep t)
  | .iterate, .basicFeasible t => iterate t
  | .pickEntering, .basicFeasible t => .ok (t.pickEnteringStep rule)
  | .findLeaving, .entering e => reported .simplex (findLeavingStep e rule)
  | .pivot, .leaving l => reported .simplex (pivotStep l)
  | .resume, .pivoted p => .ok p.resumeStep
  | .readSolution, .optimal t => reported .simplex (readSolutionStep t)
  | c, state => .error (.failure (.stateMismatch c.source state.kind))

/-- Drive a state towards `goal` until it stops, with at most `budget` of `limit` steps left. -/
def driveTowards (apply : Conversion → State → Guarded ChainError Step) (limit : Nat)
    (goal : StateKind) (targets : List StateKind) : Nat → State → Guarded ChainError (List Step)
  | budget, state =>
    if stopsAt targets state.kind then .ok []
    else
      match budget with
      | 0 => .error (.failure (.iterationLimitExceeded limit))
      | budget + 1 => do
        let conversion ← ofExcept (nextConversion state.kind goal)
        let step ← apply conversion state
        let later ← driveTowards apply limit goal targets budget step.result
        .ok (step :: later)

def drive (apply : Conversion → State → Guarded ChainError Step) (limit : Nat) (state : State) :
    List StateKind → Guarded ChainError (List Step)
  | [] => .ok []
  | goal :: others => driveTowards apply limit goal (goal :: others) limit state

/-- One iteration, whose steps are made by the given applier. -/
def iterateWith (apply : Conversion → State → Guarded ChainError Step) (limit : Nat)
    (t : Tableau) : Guarded ChainError Step := do
  let steps ← drive apply limit (.basicFeasible t) [.pivoted, .optimal, .unbounded]
  let result ← ofExcept (iterationResult (steps.getLast?.map Step.result))
  .ok (iterationStep steps result)

def innerApply (s : Settings) : Conversion → State → Guarded ChainError Step :=
  applyWith (fun _ => .error (.failure (.stateMismatch .pivoted .basicFeasible))) s.rule

def apply (s : Settings) : Conversion → State → Guarded ChainError Step :=
  applyWith (iterateWith (innerApply s) s.maxSteps) s.rule

def convertToAny (s : Settings) (state : State) (targets : List StateKind) :
    Guarded ChainError (List Step) :=
  drive (apply s) s.maxSteps state targets

theorem applyWith_eq {iterate : Tableau → Guarded ChainError Step}
    {iterate' : Tableau → Except ChainError Step} (h : ∀ t, iterate t = ofExcept (iterate' t))
    (rule : PivotRule) (c : Conversion) (state : State) :
    applyWith iterate rule c state = ofExcept (ExactSimplex.applyWith iterate' rule c state) := by
  unfold applyWith
  split
  · rfl
  · rw [layoutStep_eq, reported_ofExcept]; rfl
  · rw [acceptBasisStep_eq, reported_ofExcept]; rfl
  · exact h _
  · rfl
  · rw [findLeavingStep_eq, reported_ofExcept]; rfl
  · rw [pivotStep_eq, reported_ofExcept]; rfl
  · rfl
  · rw [readSolutionStep_eq, reported_ofExcept]; rfl
  · unfold ExactSimplex.applyWith
    split <;> simp_all

theorem driveTowards_eq {apply : Conversion → State → Guarded ChainError Step} {apply' : Applier}
    (h : ∀ c state, apply c state = ofExcept (apply' c state)) (limit : Nat) (goal : StateKind)
    (targets : List StateKind) (budget : Nat) (state : State) :
    driveTowards apply limit goal targets budget state =
      ofExcept (ExactSimplex.driveTowards apply' limit goal targets budget state) := by
  induction budget generalizing state with
  | zero =>
    unfold driveTowards ExactSimplex.driveTowards
    split <;> rfl
  | succ budget ih =>
    unfold driveTowards ExactSimplex.driveTowards
    split
    · rfl
    · simp only [ofExcept_bind, h, ih, ofExcept_ok]

theorem drive_eq {apply : Conversion → State → Guarded ChainError Step} {apply' : Applier}
    (h : ∀ c state, apply c state = ofExcept (apply' c state)) (limit : Nat) (state : State)
    (targets : List StateKind) :
    drive apply limit state targets = ofExcept (ExactSimplex.drive apply' limit state targets) := by
  cases targets with
  | nil => rfl
  | cons goal others => exact driveTowards_eq h limit goal (goal :: others) limit state

theorem iterateWith_eq {apply : Conversion → State → Guarded ChainError Step} {apply' : Applier}
    (h : ∀ c state, apply c state = ofExcept (apply' c state)) (limit : Nat) (t : Tableau) :
    iterateWith apply limit t = ofExcept (ExactSimplex.iterateWith apply' limit t) := by
  simp only [iterateWith, ExactSimplex.iterateWith, drive_eq h, ofExcept_bind, ofExcept_ok]

theorem innerApply_eq (s : Settings) (c : Conversion) (state : State) :
    innerApply s c state = ofExcept (s.innerApply c state) := by
  have hrefused : ∀ _ : Tableau,
      (.error (.failure (.stateMismatch .pivoted .basicFeasible)) : Guarded ChainError Step) =
        ofExcept (.error (.stateMismatch .pivoted .basicFeasible)) := fun _ => rfl
  exact applyWith_eq hrefused s.rule c state

theorem apply_eq (s : Settings) (c : Conversion) (state : State) :
    apply s c state = ofExcept (s.apply c state) :=
  applyWith_eq (iterateWith_eq (innerApply_eq s) s.maxSteps) s.rule c state

/-- An iteration is a guarded run of the applier itself: the one that refuses iterations is never
asked for one. -/
theorem apply_eq_applyWith (s : Settings) (c : Conversion) (state : State) :
    apply s c state = applyWith (iterateWith (apply s) s.maxSteps) s.rule c state := by
  have hiterate : ∀ t, iterateWith (apply s) s.maxSteps t = ofExcept (s.iterate t) := by
    intro t
    rw [iterateWith_eq (apply_eq s), Settings.iterate_eq]
  rw [apply_eq, applyWith_eq hiterate]
  rfl

/-- A conversion applied to any state, and a run from any state to any targets, made with guarded
operations: under all settings both have the result of the engine, steps or a failure of its own,
and meet no fault. -/
theorem runs_without_fault (s : Settings) (state : State) :
    (∀ c : Conversion,
      (∃ step, apply s c state = .ok step ∧ s.apply c state = .ok step) ∨
        ∃ e, apply s c state = .error (.failure e) ∧ s.apply c state = .error e) ∧
    ∀ targets : List StateKind,
      (∃ steps, convertToAny s state targets = .ok steps ∧
        s.convertToAny state targets = .ok steps) ∨
        ∃ e, convertToAny s state targets = .error (.failure e) ∧
          s.convertToAny state targets = .error e := by
  constructor
  · intro c
    rw [apply_eq]
    exact ok_or_failure (s.apply c state)
  · intro targets
    rw [convertToAny, drive_eq (apply_eq s)]
    exact ok_or_failure (s.convertToAny state targets)

end ExactSimplex.Guarded
