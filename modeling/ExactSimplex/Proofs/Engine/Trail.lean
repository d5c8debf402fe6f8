import ExactSimplex.Proofs.Engine.Runs

/-! What a run leaves behind. A run that fails reports its failure and nothing else, but it has
made steps before. Its trail keeps them, so that what holds along a run can be said of the runs
that use up their steps too: a run that goes in circles is one of these. -/

namespace ExactSimplex

/-- The tableau of a basic feasible solution, if the state is one. -/
def State.feasible? : State → Option Tableau
  | .basicFeasible t => some t
  | _ => none

/-- The steps that a run has made, and its failure if it failed. -/
structure Trail where
  steps : List Step
  failure? : Option ChainError

namespace Trail

def stopped : Trail := ⟨[], none⟩

def failed (e : ChainError) : Trail := ⟨[], some e⟩

def cons (step : Step) (later : Trail) : Trail := ⟨step :: later.steps, later.failure?⟩

/-- What the run reports. -/
def report (run : Trail) : Except ChainError (List Step) :=
  match run.failure? with
  | none => .ok run.steps
  | some e => .error e

/-- The tableaux of basic feasible solutions that the run comes to, in order. -/
def tableaux (run : Trail) : List Tableau := run.steps.filterMap fun step => step.result.feasible?

@[simp] theorem steps_cons (step : Step) (later : Trail) :
    (later.cons step).steps = step :: later.steps := rfl

theorem report_cons (step : Step) (later : Trail) :
    (later.cons step).report = later.report.map (step :: ·) := by
  obtain ⟨steps, failure?⟩ := later
  cases failure? <;> rfl

theorem tableaux_eq_nil {run : Trail} (h : run.steps = []) : run.tableaux = [] := by
  rw [tableaux, h, List.filterMap_nil]

theorem tableaux_cons (step : Step) (later : Trail) :
    (later.cons step).tableaux = step.result.feasible?.toList ++ later.tableaux := by
  rw [tableaux, steps_cons, List.filterMap_cons]
  cases step.result.feasible? <;> rfl

end Trail

/-- Drive a state as the engine does, and keep the steps where the run fails. -/
def trailTowards (apply : Applier) (limit : Nat) (goal : StateKind) (targets : List StateKind) :
    Nat → State → Trail
  | budget, state =>
    if stopsAt targets state.kind then .stopped
    else
      match budget with
      | 0 => .failed (.iterationLimitExceeded limit)
      | budget + 1 =>
        match nextConversion state.kind goal with
        | .error e => .failed e
        | .ok c =>
          match apply c state with
          | .error e => .failed e
          | .ok step => (trailTowards apply limit goal targets budget step.result).cons step

/-- The trail of a call with one target. -/
def Settings.trail (s : Settings) (state : State) (goal : StateKind) : Trail :=
  trailTowards s.apply s.maxSteps goal [goal] s.maxSteps state

section

variable {applier : Applier} {limit budget : Nat} {goal : StateKind} {targets : List StateKind}
  {state : State}

/-- The trail is that of the engine's run. -/
theorem report_trailTowards (applier : Applier) (limit : Nat) (goal : StateKind)
    (targets : List StateKind) (budget : Nat) (state : State) :
    (trailTowards applier limit goal targets budget state).report =
      driveTowards applier limit goal targets budget state := by
  induction budget generalizing state with
  | zero =>
    rw [trailTowards, driveTowards_eq]
    split <;> rfl
  | succ budget ih =>
    rw [trailTowards, driveTowards_eq]
    split
    · rfl
    · cases nextConversion state.kind goal with
      | error e => rfl
      | ok c =>
        simp only [bind, Except.bind]
        cases applier c state with
        | error e => rfl
        | ok step =>
          simp only [Trail.report_cons, ih]
          rfl

theorem Settings.report_trail (s : Settings) (state : State) (goal : StateKind) :
    (s.trail state goal).report = s.convertTo state goal :=
  report_trailTowards _ _ _ _ _ _

theorem trailTowards_stop (h : stopsAt targets state.kind = true) :
    trailTowards applier limit goal targets budget state = .stopped := by
  cases budget <;> rw [trailTowards, if_pos h]

/-- A trail is empty or begins with a step, which the conversion made that was asked for. -/
theorem trailTowards_cases (applier : Applier) (limit : Nat) (goal : StateKind)
    (targets : List StateKind) (budget : Nat) (state : State) :
    (trailTowards applier limit goal targets budget state).steps = [] ∨
    ∃ left c step, budget = left + 1 ∧ stopsAt targets state.kind = false ∧
      nextConversion state.kind goal = .ok c ∧ applier c state = .ok step ∧
      trailTowards applier limit goal targets budget state =
        (trailTowards applier limit goal targets left step.result).cons step := by
  cases hgo : stopsAt targets state.kind with
  | true => exact .inl (by rw [trailTowards_stop hgo]; rfl)
  | false =>
    cases budget with
    | zero => exact .inl (by rw [trailTowards, if_neg (by simp [hgo])]; rfl)
    | succ left =>
      rw [trailTowards, if_neg (by simp [hgo])]
      cases hnext : nextConversion state.kind goal with
      | error e => exact .inl rfl
      | ok c =>
        cases happ : applier c state with
        | error e => exact .inl (by simp only [happ]; rfl)
        | ok step => exact .inr ⟨left, c, step, rfl, rfl, rfl, happ, by simp only [happ]⟩

end

end ExactSimplex
