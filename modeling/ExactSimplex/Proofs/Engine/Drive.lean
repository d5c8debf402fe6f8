import ExactSimplex.Engine.Run
import ExactSimplex.Proofs.Except

/-! Runs of the engine, one step at a time. A run that succeeds does the same with more steps
to spare; what every applied conversion keeps holds of every state of a run; and a
conversion that succeeds is one of nine kinds of steps. -/

namespace ExactSimplex

/-- The state in which a list of steps ends, if it has a step. -/
def finalState? (steps : List Step) : Option State := steps.getLast?.map Step.result

theorem getD_finalState?_cons (step : Step) (steps : List Step) (state : State) :
    (finalState? (step :: steps)).getD state = (finalState? steps).getD step.result := by
  cases steps <;> rfl

theorem getD_finalState?_append (first later : List Step) (state : State) :
    (finalState? (first ++ later)).getD state =
      (finalState? later).getD ((finalState? first).getD state) := by
  induction first generalizing state with
  | nil => rfl
  | cons step first ih => rw [List.cons_append, getD_finalState?_cons, getD_finalState?_cons, ih]

theorem finalState?_cons {step : Step} {steps : List Step} {final : State}
    (h : finalState? steps = some final) : finalState? (step :: steps) = some final := by
  obtain ⟨last, hlast, rfl⟩ := Option.map_eq_some_iff.mp h
  simp [finalState?, List.getLast?_cons, hlast]

/-! ## One step of a run -/

/-- What comes next on the way to the solution. -/
theorem nextConversion_solution (kind : StateKind) : nextConversion kind .solution =
    match kind with
    | .program => .ok .standardize
    | .standardProgram => .ok .layOut
    | .unknownTableau => .ok .acceptBasis
    | .basicFeasible => .ok .iterate
    | .entering => .ok .findLeaving
    | .leaving => .ok .pivot
    | .pivoted => .ok .resume
    | .optimal => .ok .readSolution
    | kind => .error (.noPathFound kind .solution) := by
  cases kind <;> rfl

section Drive

variable {applier : Applier} {limit limit' budget budget' : Nat} {goal : StateKind}
  {targets : List StateKind} {state : State} {steps : List Step}

theorem driveTowards_eq :
    driveTowards applier limit goal targets budget state =
      if stopsAt targets state.kind then .ok []
      else
        match budget with
        | 0 => .error (.iterationLimitExceeded limit)
        | left + 1 =>
          nextConversion state.kind goal >>= fun c => applier c state >>= fun step =>
            (step :: ·) <$> driveTowards applier limit goal targets left step.result := by
  cases budget <;> rfl

theorem driveTowards_stop (h : stopsAt targets state.kind = true) :
    driveTowards applier limit goal targets budget state = .ok [] := by
  rw [driveTowards_eq, if_pos h]

theorem driveTowards_succ (h : stopsAt targets state.kind = false) {c : Conversion}
    (hnext : nextConversion state.kind goal = .ok c) :
    driveTowards applier limit goal targets (budget + 1) state =
      (applier c state).bind fun step =>
        (driveTowards applier limit goal targets budget step.result).map (step :: ·) := by
  rw [driveTowards_eq, if_neg (by simp [h]), hnext]
  rfl

/-- A run that succeeds has stopped at once or makes a first step and goes on. -/
theorem driveTowards_eq_ok (h : driveTowards applier limit goal targets budget state = .ok steps) :
    (stopsAt targets state.kind = true ∧ steps = []) ∨
    (stopsAt targets state.kind = false ∧ ∃ left c step later, budget = left + 1 ∧
      nextConversion state.kind goal = .ok c ∧ applier c state = .ok step ∧
      driveTowards applier limit goal targets left step.result = .ok later ∧
      steps = step :: later) := by
  rw [driveTowards_eq] at h
  split at h
  · rename_i hstop
    exact .inl ⟨hstop, (Except.ok.inj h).symm⟩
  · rename_i hstop
    refine .inr ⟨by simpa using hstop, ?_⟩
    cases budget with
    | zero => cases h
    | succ left =>
      obtain ⟨c, hc, h⟩ := bind_eq_ok.mp h
      obtain ⟨step, hs, h⟩ := bind_eq_ok.mp h
      obtain ⟨later, hl, rfl⟩ := map_eq_ok.mp h
      exact ⟨left, c, step, later, rfl, hc, hs, hl, rfl⟩

/-! ## Runs -/

theorem driveTowards_mono (h : driveTowards applier limit goal targets budget state = .ok steps)
    (hb : budget ≤ budget') :
    driveTowards applier limit' goal targets budget' state = .ok steps := by
  induction budget generalizing state steps budget' with
  | zero =>
    rcases driveTowards_eq_ok h with ⟨hstop, rfl⟩ | ⟨-, left, _, _, _, hz, -⟩
    · exact driveTowards_stop hstop
    · omega
  | succ budget ih =>
    rcases driveTowards_eq_ok h with ⟨hstop, rfl⟩ | ⟨hgo, left, c, step, later, hz, hc, hs, hl, rfl⟩
    · exact driveTowards_stop hstop
    · obtain ⟨left', rfl⟩ := Nat.exists_eq_add_of_le' (show 1 ≤ budget' by omega)
      obtain rfl : left = budget := by omega
      rw [driveTowards_succ hgo hc, hs]
      simp only [Except.bind]
      rw [ih hl (show left ≤ left' by omega)]
      rfl

/-- With less room a run that succeeds does the same or fails for want of room. -/
theorem driveTowards_of_less (limit : Nat)
    (h : driveTowards applier limit' goal targets budget' state = .ok steps)
    (hb : budget ≤ budget') :
    driveTowards applier limit goal targets budget state = .ok steps ∨
      driveTowards applier limit goal targets budget state =
        .error (.iterationLimitExceeded limit) := by
  induction budget generalizing state steps budget' with
  | zero =>
    rcases driveTowards_eq_ok h with ⟨hstop, rfl⟩ | ⟨hgo, -⟩
    · exact .inl (driveTowards_stop hstop)
    · exact .inr (by rw [driveTowards_eq, if_neg (by simp [hgo])])
  | succ budget ih =>
    rcases driveTowards_eq_ok h with ⟨hstop, rfl⟩ | ⟨hgo, left, c, step, later, hz, hc, hs, hl, rfl⟩
    · exact .inl (driveTowards_stop hstop)
    · rw [driveTowards_succ hgo hc, hs]
      rcases ih hl (show budget ≤ left by omega) with hrest | hrest
      · exact .inl (by simp only [Except.bind, hrest]; rfl)
      · exact .inr (by simp only [Except.bind, hrest]; rfl)

/-- Every step of a run is a conversion applied to a state for which holds what holds of the
start and is kept by every conversion. -/
theorem driveTowards_applied {Inv : State → Prop}
    (hstep : ∀ c state step, Inv state → applier c state = .ok step → Inv step.result)
    (h : driveTowards applier limit goal targets budget state = .ok steps) (hi : Inv state) :
    ∀ step ∈ steps, ∃ c before, Inv before ∧ applier c before = .ok step := by
  induction budget generalizing state steps with
  | zero =>
    rcases driveTowards_eq_ok h with ⟨-, rfl⟩ | ⟨-, left, _, _, _, hz, -⟩
    · simp
    · omega
  | succ budget ih =>
    rcases driveTowards_eq_ok h with ⟨-, rfl⟩ | ⟨-, left, c, step, later, hz, -, hs, hl, rfl⟩
    · simp
    · obtain rfl : left = budget := by omega
      intro other hmem
      rcases List.mem_cons.mp hmem with rfl | hmem
      · exact ⟨c, state, hi, hs⟩
      · exact ih hl (hstep c state step hi hs) other hmem

/-- What holds of the start and is kept by every conversion holds after every step. -/
theorem driveTowards_invariant {Inv : State → Prop}
    (hstep : ∀ c state step, Inv state → applier c state = .ok step → Inv step.result)
    (h : driveTowards applier limit goal targets budget state = .ok steps) (hi : Inv state) :
    ∀ step ∈ steps, Inv step.result := by
  intro step hmem
  obtain ⟨c, before, hbefore, hs⟩ := driveTowards_applied hstep h hi step hmem
  exact hstep c before step hbefore hs

/-- The same for the state in which a run ends. -/
theorem Settings.convertToAny_invariant {s : Settings} {Inv : State → Prop} {final : State}
    (hstep : ∀ c state step, Inv state → s.apply c state = .ok step → Inv step.result)
    (h : s.convertToAny state targets = .ok steps) (hi : Inv state)
    (hfinal : finalState? steps = some final) : Inv final := by
  obtain ⟨last, hlast, rfl⟩ := Option.map_eq_some_iff.mp hfinal
  have hmem := List.mem_of_getLast? hlast
  cases targets with
  | nil =>
    obtain rfl : [] = steps := Except.ok.inj h
    cases hmem
  | cons goal others => exact driveTowards_invariant hstep h hi last hmem

end Drive

/-! ## The conversions that succeed -/

/-- A conversion applied to a state that it starts from, with the step that it makes. -/
inductive Applied (iterate : Tableau → Except ChainError Step) (rule : PivotRule) :
    State → Step → Prop
  | standardize {p step} : p.standardizeStep = .ok step → Applied iterate rule (.program p) step
  | layOut {p step} : p.layoutStep = .ok step → Applied iterate rule (.standardProgram p) step
  | acceptBasis {t step} : t.acceptBasisStep = .ok step →
      Applied iterate rule (.unknownTableau t) step
  | iterate {t step} : iterate t = .ok step → Applied iterate rule (.basicFeasible t) step
  | pickEntering {t} : Applied iterate rule (.basicFeasible t) (t.pickEnteringStep rule)
  | findLeaving {e step} : e.findLeavingStep rule = .ok step →
      Applied iterate rule (.entering e) step
  | pivot {l step} : l.pivotStep = .ok step → Applied iterate rule (.leaving l) step
  | resume {p} : Applied iterate rule (.pivoted p) p.resumeStep
  | readSolution {t step} : t.readSolutionStep = .ok step → Applied iterate rule (.optimal t) step

theorem applyWith_eq_ok {iterate : Tableau → Except ChainError Step} {rule : PivotRule}
    {c : Conversion} {state : State} {step : Step}
    (h : applyWith iterate rule c state = .ok step) : Applied iterate rule state step := by
  unfold applyWith at h
  split at h
  · exact .standardize (mapError_eq_ok.mp h)
  · exact .layOut (mapError_eq_ok.mp h)
  · exact .acceptBasis (mapError_eq_ok.mp h)
  · exact .iterate h
  · exact Except.ok.inj h ▸ .pickEntering
  · exact .findLeaving (mapError_eq_ok.mp h)
  · exact .pivot (mapError_eq_ok.mp h)
  · exact Except.ok.inj h ▸ .resume
  · exact .readSolution (mapError_eq_ok.mp h)
  · cases h

/-- An iteration that succeeds has the run inside it for its finer steps and ends as that run. -/
theorem iterateWith_eq_ok {applier : Applier} {limit : Nat} {t : Tableau} {step : Step}
    (h : iterateWith applier limit t = .ok step) :
    drive applier limit (.basicFeasible t) [.pivoted, .optimal, .unbounded] = .ok step.substeps ∧
      iterationResult (finalState? step.substeps) = .ok step.result ∧
      step.name = Conversion.iterate.name := by
  obtain ⟨inner, hrun, h⟩ := bind_eq_ok.mp h
  obtain ⟨result, hresult, h⟩ := bind_eq_ok.mp h
  obtain rfl := Except.ok.inj h
  exact ⟨hrun, hresult, rfl⟩

end ExactSimplex
