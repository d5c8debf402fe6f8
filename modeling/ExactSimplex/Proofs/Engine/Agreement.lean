import ExactSimplex.Proofs.Engine.Progress
import ExactSimplex.Proofs.Solution.Unboundedness

/-! Runs under different settings agree. Where a run ends is a fact about the standard form alone:
a solution has the best value of the objective there, and an unbounded verdict means that there is
none. The conversions before the first choice of a pivot do not ask for the rule, and after it only
the room for steps can run out. -/

namespace ExactSimplex

theorem Direction.eq_of_not_better {d : Direction} {a b : Rat} (h : ¬ d.Better a b)
    (h' : ¬ d.Better b a) : a = b := by
  cases d
  · exact le_antisymm (not_lt.mp h) (not_lt.mp h')
  · exact le_antisymm (not_lt.mp h') (not_lt.mp h)

/-! ## The value of a standard form -/

namespace Program

variable {std : Program} {z z' : Rat}

/-- A feasible point gives the objective this value, and none gives it a better one. -/
structure Best (std : Program) (z : Rat) : Prop where
  attained : ∃ v, std.Feasible v ∧ std.objective.expression.eval v = z
  best : ∀ v, std.Feasible v →
    ¬ std.objective.direction.Better (std.objective.expression.eval v) z

/-- Feasible points make the objective better than any bound. -/
def Limitless (std : Program) : Prop :=
  ∀ bound, ∃ v, std.Feasible v ∧
    std.objective.direction.Better (std.objective.expression.eval v) bound

theorem Best.unique (h : std.Best z) (h' : std.Best z') : z = z' := by
  obtain ⟨v, hv, rfl⟩ := h.attained
  obtain ⟨v', hv', rfl⟩ := h'.attained
  exact Direction.eq_of_not_better (h'.best v hv) (h.best v' hv')

theorem Best.not_limitless (h : std.Best z) : ¬ std.Limitless := by
  intro hlimitless
  obtain ⟨v, hv, hbetter⟩ := hlimitless z
  exact h.best v hv hbetter

end Program

/-- What the state in which a run ends says of the standard form. -/
inductive State.Concludes (std : Program) : State → Prop
  | solution {sol : Solution} : std.Best sol.objectiveValue → Concludes std (.solution sol)
  | unbounded {e : Entering} : std.Limitless → Concludes std (.unbounded e)

namespace Tableau.Reaches

variable {std : Program} {t : Tableau} {rule : PivotRule} {q : Nat} {sol : Solution}

theorem best_of_isOptimal (hr : (layout std).Reaches t) (hw : std.WellFormed)
    (heq : std.isStandard = true) (hopt : t.isOptimal = true) (hread : t.readSolution = .ok sol) :
    std.Best sol.objectiveValue := by
  obtain ⟨hfeas, hz⟩ := hr.basicPoint_feasible hw heq
  obtain ⟨-, hvalue⟩ := hr.canonical.readSolution_eq_ok hr.layout_rhsColumn_pos hread
  rw [show t.objective = std.objective from hr.objective] at hvalue
  refine ⟨⟨_, hfeas, hvalue.symm⟩, fun v hv => ?_⟩
  rw [hvalue, ← hz]
  exact hr.not_better hw heq hopt hv

theorem limitless_of_enters (hr : (layout std).Reaches t) (hw : std.WellFormed)
    (heq : std.isStandard = true) (he : t.Enters rule q)
    (hall : ∀ i, 0 < i → i < t.rows.length → t.entry i q ≤ 0) : std.Limitless := by
  intro bound
  obtain ⟨θ, hθ, hbetter⟩ := exists_raised_better hr.canonical hr.layout_rows_pos he bound
  obtain ⟨hfeas, hz⟩ := hr.feasible_named_raised hw heq he hall hθ
  rw [hz, hr.direction] at hbetter
  exact ⟨_, hfeas, hbetter⟩

end Tableau.Reaches

variable {p std : Program} {s : Settings} {rule : PivotRule} {state final : State}
  {steps : List Step}

theorem Program.Becomes.concludes (hw : p.WellFormed) (h : p.Becomes rule state)
    (hkind : state.kind.isTerminal = true) :
    ∃ std, p.standardize = .ok std ∧ state.Concludes std := by
  cases h with
  | program => cases hkind
  | standard => cases hkind
  | tableau hstd h =>
    obtain ⟨added, hform⟩ := standardized_of_standardize hstd
    have hwf := hform.wellFormed hw
    refine ⟨_, hstd, ?_⟩
    cases h with
    | solution hr hopt hread =>
      exact .solution (hr.best_of_isOptimal hwf hform.isStandard hopt hread)
    | unbounded hr he hall =>
      exact .unbounded (hr.limitless_of_enters hwf hform.isStandard he hall)
    | _ => cases hkind

/-! ## Where a run ends -/

theorem driveTowards_stopsAt {applier : Applier} {limit budget : Nat} {goal : StateKind}
    {targets : List StateKind}
    (h : driveTowards applier limit goal targets budget state = .ok steps) :
    stopsAt targets ((finalState? steps).getD state).kind = true := by
  induction budget generalizing state steps with
  | zero =>
    rcases driveTowards_eq_ok h with ⟨hstop, rfl⟩ | ⟨-, _, _, _, _, hz, -⟩
    · exact hstop
    · omega
  | succ budget ih =>
    rcases driveTowards_eq_ok h with ⟨hstop, rfl⟩ | ⟨-, left, c, step, later, hz, -, -, hl, rfl⟩
    · exact hstop
    · obtain rfl : left = budget := by omega
      rw [getD_finalState?_cons]
      exact ih hl

/-- A run from a program to the solution ends with a conclusion about the standard form. -/
theorem Settings.exists_concludes (hw : p.WellFormed)
    (h : s.convertTo (.program p) .solution = .ok steps) :
    ∃ std final, p.standardize = .ok std ∧ finalState? steps = some final ∧
      final.Concludes std := by
  have hstops := driveTowards_stopsAt h
  cases hfinal : finalState? steps with
  | none => rw [hfinal] at hstops; cases hstops
  | some final =>
    rw [hfinal, stopsAt_solution] at hstops
    obtain ⟨std, hstd, hconcludes⟩ :=
      (Program.becomes_of_convertTo hw h hfinal).concludes hw hstops
    exact ⟨std, final, hstd, rfl, hconcludes⟩

/-! ## How a run fails -/

namespace Settings

variable {s₁ s₂ : Settings} {budget : Nat} {c : Conversion}

/-- With so much room left, what fails under the one settings for another reason than want of room
fails in the same way under the other. -/
def FailsAlike (s₁ s₂ : Settings) (budget : Nat) (state : State) : Prop :=
  ∀ e, (∀ limit, e ≠ .iterationLimitExceeded limit) →
    driveTowards s₁.apply s₁.maxSteps .solution [.solution] budget state = .error e →
    driveTowards s₂.apply s₂.maxSteps .solution [.solution] budget state = .error e

theorem failsAlike_zero (state : State) : FailsAlike s₁ s₂ 0 state := by
  intro e hlimit h
  rw [driveTowards_eq] at h
  split at h
  · cases h
  · exact absurd (Except.error.inj h).symm (hlimit _)

theorem Settles.failsAlike (h : s₁.Settles budget state) : FailsAlike s₁ s₂ budget state := by
  intro e hlimit herror
  rcases h with ⟨steps, hrun, -⟩ | hroom
  · rw [hrun] at herror
    cases herror
  · rw [hroom] at herror
    exact absurd (Except.error.inj herror).symm (hlimit _)

/-- Runs fail alike where the next conversion does not ask for the settings and the runs from its
result fail alike. -/
theorem FailsAlike.cons (hnext : nextConversion state.kind .solution = .ok c)
    (hgo : stopsAt [.solution] state.kind = false) (happ : s₁.apply c state = s₂.apply c state)
    (h : ∀ step, s₁.apply c state = .ok step → FailsAlike s₁ s₂ budget step.result) :
    FailsAlike s₁ s₂ (budget + 1) state := by
  intro e hlimit herror
  rw [driveTowards_succ hgo hnext] at herror ⊢
  rw [← happ]
  cases hstep : s₁.apply c state with
  | error f => rwa [hstep] at herror
  | ok step =>
    rw [hstep] at herror
    simp only [Except.bind] at herror ⊢
    cases hlater : driveTowards s₁.apply s₁.maxSteps .solution [.solution] budget step.result with
    | ok later => rw [hlater] at herror; cases herror
    | error f =>
      rw [hlater] at herror
      cases herror
      rw [h step hstep _ hlimit hlater]
      rfl

/-- From a tableau that was built only the check of its basis can fail, which knows no settings. -/
theorem failsAlike_layout (hw : std.WellFormed) (heq : std.isStandard = true) :
    FailsAlike s₁ s₂ budget (.unknownTableau (Tableau.layout std)) := by
  cases budget with
  | zero => exact failsAlike_zero _
  | succ budget =>
    refine .cons (nextConversion_solution _) rfl rfl fun step hstep => ?_
    obtain ⟨hf, hres⟩ := Tableau.acceptBasisStep_eq_ok (mapError_eq_ok.mp hstep)
    rw [hres]
    exact (settles_basicFeasible (.refl (Tableau.layout_canonical hw hf)) hw heq budget).failsAlike

theorem failsAlike_program (hw : p.WellFormed) : FailsAlike s₁ s₂ budget (.program p) := by
  cases budget with
  | zero => exact failsAlike_zero _
  | succ budget =>
    refine .cons (nextConversion_solution _) rfl rfl fun step hstep => ?_
    obtain ⟨std, hstd, rfl⟩ := map_eq_ok.mp (mapError_eq_ok.mp hstep)
    obtain ⟨added, hform⟩ := Program.standardized_of_standardize hstd
    cases budget with
    | zero => exact failsAlike_zero _
    | succ budget =>
      refine .cons (nextConversion_solution _) rfl rfl fun step hstep => ?_
      rw [Program.layoutStep_eq_ok (mapError_eq_ok.mp hstep)]
      exact failsAlike_layout (hform.wellFormed hw) hform.isStandard

/-- Whatever the rules and the limits are, two runs of a well-formed program that succeed both end
with solutions of one objective value or both with an unbounded verdict. Under one limit, a failure
that is not the limit itself does not depend on the rule. -/
theorem outcomes_agree (s₁ s₂ : Settings) (p : Program) (hw : p.WellFormed) :
    (∀ steps₁ steps₂, s₁.convertTo (.program p) .solution = .ok steps₁ →
      s₂.convertTo (.program p) .solution = .ok steps₂ →
      (∃ sol₁ sol₂, finalState? steps₁ = some (.solution sol₁) ∧
        finalState? steps₂ = some (.solution sol₂) ∧
          sol₁.objectiveValue = sol₂.objectiveValue) ∨
      ∃ e₁ e₂, finalState? steps₁ = some (.unbounded e₁) ∧
        finalState? steps₂ = some (.unbounded e₂)) ∧
    (s₁.maxSteps = s₂.maxSteps → ∀ e, (∀ limit, e ≠ .iterationLimitExceeded limit) →
      s₁.convertTo (.program p) .solution = .error e →
        s₂.convertTo (.program p) .solution = .error e) := by
  constructor
  · intro steps₁ steps₂ h₁ h₂
    obtain ⟨std, final₁, hstd, hfinal₁, hc₁⟩ := exists_concludes hw h₁
    obtain ⟨std', final₂, hstd', hfinal₂, hc₂⟩ := exists_concludes hw h₂
    obtain rfl : std = std' := Except.ok.inj (hstd.symm.trans hstd')
    cases hc₁ with
    | solution hbest =>
      cases hc₂ with
      | solution hbest' => exact .inl ⟨_, _, hfinal₁, hfinal₂, hbest.unique hbest'⟩
      | unbounded hlimitless => exact absurd hlimitless hbest.not_limitless
    | unbounded hlimitless =>
      cases hc₂ with
      | solution hbest => exact absurd hlimitless hbest.not_limitless
      | unbounded => exact .inr ⟨_, _, hfinal₁, hfinal₂⟩
  · intro hlimit e hne herror
    have hfails : driveTowards s₂.apply s₂.maxSteps .solution [.solution] s₁.maxSteps
        (.program p) = .error e := failsAlike_program hw e hne herror
    rwa [hlimit] at hfails

end Settings

/-- No point meets its constraint, and the basis of its tableau is refused. -/
def Program.shortage : Program where
  objective := ⟨.max, "z", .ofTerms [("x1", 1)]⟩
  constraints := [⟨.ofTerms [("x1", 1)], .atMost, -1⟩]
  declarations := ⟨[("x1", .nonNegative)]⟩

/-- Bland's rule needs one iteration more than Dantzig's and comes to the same value. -/
theorem Settings.outcomes_agree_plants :
    Program.plants.WellFormed ∧ Program.shortage.WellFormed ∧
    (∃ steps₁ steps₂ sol₁ sol₂,
      Settings.convertTo ⟨100, .dantzig⟩ (.program .plants) .solution = .ok steps₁ ∧
      Settings.convertTo ⟨50, .bland⟩ (.program .plants) .solution = .ok steps₂ ∧
      steps₁.length = 7 ∧ steps₂.length = 8 ∧ finalState? steps₁ = some (.solution sol₁) ∧
      finalState? steps₂ = some (.solution sol₂) ∧ sol₁.objectiveValue = sol₂.objectiveValue) ∧
    Settings.convertTo ⟨9, .bland⟩ (.program .shortage) .solution =
      .error (.simplex (.infeasibleStart 1 (-1))) := by
  have hplants : Program.plants.WellFormed := by decide +kernel
  have hshortage : Program.shortage.WellFormed := by decide +kernel
  have hdantzig : (Settings.convertTo ⟨100, .dantzig⟩ (.program .plants) .solution).map
      (fun steps => (steps.length, finalState? steps)) = .ok (7, some (.solution .plants)) := by
    decide +kernel
  have hbland : (Settings.convertTo ⟨50, .bland⟩ (.program .plants) .solution).map List.length =
      .ok 8 := by decide +kernel
  have hrefused : (Settings.convertTo ⟨9, .dantzig⟩ (.program .shortage) .solution).map
      finalState? = .error (.simplex (.infeasibleStart 1 (-1))) := by decide +kernel
  obtain ⟨steps₁, h₁, hlast⟩ := map_eq_ok.mp hdantzig
  obtain ⟨steps₂, h₂, hlength⟩ := map_eq_ok.mp hbland
  obtain ⟨hlength₁, hlast⟩ := Prod.mk.inj hlast
  refine ⟨hplants, hshortage, ?_, ?_⟩
  · rcases (outcomes_agree ⟨100, .dantzig⟩ ⟨50, .bland⟩ _ hplants).1 steps₁ steps₂ h₁ h₂ with
      ⟨sol₁, sol₂, hlast₁, hlast₂, hvalue⟩ | ⟨e, _, hlast', -⟩
    · exact ⟨steps₁, steps₂, sol₁, sol₂, h₁, h₂, hlength₁, hlength, hlast₁, hlast₂, hvalue⟩
    · rw [hlast] at hlast'
      cases hlast'
  · exact (outcomes_agree ⟨9, .dantzig⟩ ⟨9, .bland⟩ _ hshortage).2 rfl _ nofun
      (map_eq_error.mp hrefused)

end ExactSimplex
