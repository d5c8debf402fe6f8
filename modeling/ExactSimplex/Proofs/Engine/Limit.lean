import ExactSimplex.Proofs.Engine.Inside

/-! What the limit of steps does. A run that is known under one limit is known under all: it is the
same where its steps and the steps inside its iterations fit, and fails with the limit elsewhere.
The run inside an iteration has the limit to itself, so a limit below three can refuse a run that
has no more steps than it allows. That happens to runs that begin with an iteration only, and only
where they use the limit up. -/

namespace ExactSimplex

variable {s : Settings} {rule : PivotRule} {c : Conversion} {t : Tableau} {state : State}
  {goal : StateKind} {targets others : List StateKind} {step : Step} {steps : List Step}

namespace Settings

/-! ## Every limit -/

theorem iterate_limit (h : s.iterate t = .ok step) (n : Nat) :
    Settings.iterate ⟨n, s.rule⟩ t =
      if step.substeps.length ≤ n then .ok step else .error (.iterationLimitExceeded n) := by
  obtain ⟨inner, hrun, hstep⟩ := bind_eq_ok.mp h
  obtain rfl : inner = step.substeps :=
    Except.ok.inj (hrun.symm.trans (iterateWith_eq_ok h).1)
  have hsame (c : Conversion) (state : State) (made : Step)
      (happ : s.innerApply c state = .ok made) : Settings.innerApply ⟨n, s.rule⟩ c state =
        if True then .ok made else .error (.iterationLimitExceeded n) := by
    rw [if_pos trivial]
    exact happ
  have hinner := (runs_of_driveTowards hrun).1.driveTowards_eq hsame n
  simp only [implies_true, and_true] at hinner
  rw [iterate, iterateWith, drive, hinner]
  split
  · exact hstep
  · rfl

theorem apply_limit (h : s.apply c state = .ok step) (n : Nat) :
    Settings.apply ⟨n, s.rule⟩ c state =
      if step.substeps.length ≤ n then .ok step else .error (.iterationLimitExceeded n) := by
  by_cases hc : c = .iterate
  · subst hc
    obtain ⟨t, rfl⟩ := State.kind_eq_basicFeasible (apply_madeBy h).1.symm
    exact iterate_limit h n
  · have hnone : step.substeps.length ≤ n := by simp [substeps_eq_nil h hc]
    rw [if_pos hnone, apply_eq_innerApply hc, ← h, apply_eq_innerApply hc]
    rfl

/-- A run that there is without a limit is made or fails for want of room under every limit. -/
theorem convertToAny_limit (h : Runs s.apply goal (goal :: others) state steps) (n : Nat) :
    Settings.convertToAny ⟨n, s.rule⟩ state (goal :: others) =
      if steps.length ≤ n ∧ ∀ step ∈ steps, step.substeps.length ≤ n then .ok steps
      else .error (.iterationLimitExceeded n) :=
  h.driveTowards_eq (fun _ _ _ happ => apply_limit happ n) n

/-- More room changes nothing. -/
theorem convertToAny_mono (h : s.convertToAny state (goal :: others) = .ok steps) {n : Nat}
    (hn : s.maxSteps ≤ n) :
    Settings.convertToAny ⟨n, s.rule⟩ state (goal :: others) = .ok steps := by
  have hfits : steps.length ≤ s.maxSteps ∧ ∀ step ∈ steps, step.substeps.length ≤ s.maxSteps := by
    have hsame := convertToAny_limit (runs_of_driveTowards h).1 s.maxSteps
    rw [h] at hsame
    by_contra hnot
    rw [if_neg hnot] at hsame
    cases hsame
  rw [convertToAny_limit (runs_of_driveTowards h).1, if_pos]
  exact ⟨by omega, fun step hmem => (hfits.2 step hmem).trans hn⟩

/-! ## Steps inside iterations -/

theorem substeps_cases (h : s.apply c state = .ok step) :
    step.substeps = [] ∨
      ∃ t last, state = .basicFeasible t ∧ c = .iterate ∧ Step.Inside step.substeps last ∧
        iterationResult (some last) = .ok step.result := by
  by_cases hc : c = .iterate
  · subst hc
    obtain ⟨t, rfl⟩ := State.kind_eq_basicFeasible (apply_madeBy h).1.symm
    obtain ⟨-, -, last, hinside, hresult⟩ := iterate_eq_ok h
    exact .inr ⟨t, last, rfl, rfl, hinside, hresult⟩
  · exact .inl (substeps_eq_nil h hc)

/-- After three steps inside an iteration its run goes on, so no iteration has many more steps than
the run. -/
theorem substeps_length_le (h : Runs s.apply goal targets state steps) :
    ∀ step ∈ steps, step.substeps.length ≤ steps.length + 1 := by
  induction h with
  | stop => simp
  | @step state c step later hgo hnext happ hlater ih =>
    intro other hmem
    rw [List.length_cons]
    rcases List.mem_cons.mp hmem with rfl | hmem
    · rcases substeps_cases happ with hnone | ⟨t, last, rfl, rfl, hinside, hresult⟩
      · simp [hnone]
      · cases hlater with
        | stop hstop =>
          -- The run stopped where the iteration led, which is no basic feasible tableau: the run
          -- did not stop at that of the iteration.
          have hlast : last.kind ≠ .pivoted := by
            intro hkind
            cases last <;> cases hkind
            rw [← Except.ok.inj hresult] at hstop
            cases hgo.symm.trans hstop
          exact hinside.length_le_two hlast
        | step =>
          have hthree := hinside.length_le
          rw [List.length_cons]
          omega
    · have := ih other hmem
      omega

theorem substeps_length_le_three (h : Runs s.apply goal targets state steps) :
    ∀ step ∈ steps, step.substeps.length ≤ 3 := by
  intro step hmem
  obtain ⟨c, before, -, happ⟩ := h.exists_applied hmem
  rcases substeps_cases happ with hnone | ⟨_, _, -, -, hinside, -⟩
  · simp [hnone]
  · exact hinside.length_le

/-- A run that does not begin with an iteration has no fewer steps than any of its iterations has
inside it. -/
theorem substeps_length_le_of_ne (h : Runs s.apply goal targets state steps)
    (hstart : state.kind ≠ .basicFeasible) :
    ∀ step ∈ steps, step.substeps.length ≤ steps.length := by
  cases h with
  | stop => simp
  | step _ _ happ hlater =>
    intro other hmem
    rcases List.mem_cons.mp hmem with rfl | hmem
    · rcases substeps_cases happ with hnone | ⟨_, _, rfl, -⟩
      · simp [hnone]
      · exact absurd rfl hstart
    · exact substeps_length_le hlater other hmem

/-- A run is made under every limit that leaves room for it and for an iteration. -/
theorem convertToAny_of_runs (h : Runs s.apply goal (goal :: others) state steps) {n : Nat}
    (hthree : 3 ≤ n) (hlength : steps.length ≤ n) :
    Settings.convertToAny ⟨n, s.rule⟩ state (goal :: others) = .ok steps := by
  rw [convertToAny_limit h, if_pos]
  exact ⟨hlength, fun step hmem => (substeps_length_le_three h step hmem).trans hthree⟩

/-- Under a smaller limit a run does as its number of steps says, the same if they are within the
limit and a failure with the limit otherwise, precisely if its iterations have no more steps inside
them than the limit either. They have not if the limit is three at least, if it leaves room for
another step, or if the run does not begin at a basic feasible tableau. Where they have, the run
fails with the limit. -/
theorem convertToAny_counted_iff (rule : PivotRule) (state : State) (goal : StateKind)
    (others : List StateKind) (n m : Nat) {steps : List Step}
    (h : Settings.convertToAny ⟨m, rule⟩ state (goal :: others) = .ok steps) :
    (Settings.convertToAny ⟨n, rule⟩ state (goal :: others) =
        (if steps.length ≤ n then .ok steps else .error (.iterationLimitExceeded n)) ↔
      (steps.length ≤ n → ∀ step ∈ steps, step.substeps.length ≤ n)) ∧
    (steps.length ≤ n → 3 ≤ n ∨ steps.length < n ∨ state.kind ≠ .basicFeasible →
      ∀ step ∈ steps, step.substeps.length ≤ n) ∧
    ((∃ step ∈ steps, n < step.substeps.length) →
      Settings.convertToAny ⟨n, rule⟩ state (goal :: others) =
        .error (.iterationLimitExceeded n)) := by
  have hruns := (runs_of_driveTowards h).1
  have hlimit := convertToAny_limit hruns n
  refine ⟨?counted, ?fits, ?fails⟩
  case counted =>
    rw [hlimit]
    by_cases hlength : steps.length ≤ n <;> simp [hlength]
  case fits =>
    intro hlength hroom step hmem
    rcases hroom with hthree | hless | hstart
    · exact (substeps_length_le_three hruns step hmem).trans hthree
    · exact (substeps_length_le hruns step hmem).trans hless
    · exact (substeps_length_le_of_ne hruns hstart step hmem).trans hlength
  case fails =>
    rintro ⟨step, hmem, hlong⟩
    rw [hlimit, if_neg]
    rintro ⟨-, hfits⟩
    exact absurd (hfits step hmem) (by omega)

end Settings

/-- One resource and two products, laid out: two iterations lead to the optimum. -/
def Tableau.workshop : Tableau where
  direction := .max
  columns := ["z", "x1", "x2", "e1", "rhs"]
  rows := [[1, -1, -2, 0, 0], [0, 1, 1, 1, 3]]
  objective := ⟨.max, "z", .ofTerms [("x1", 1), ("x2", 2)]⟩

theorem Settings.convertToAny_counted_iff_workshop :
    ∃ steps, steps.length = 2 ∧
      Settings.convertToAny ⟨100, .dantzig⟩ (.basicFeasible .workshop) [.optimal] = .ok steps ∧
      Settings.convertToAny ⟨3, .dantzig⟩ (.basicFeasible .workshop) [.optimal] = .ok steps ∧
      Settings.convertToAny ⟨1, .dantzig⟩ (.basicFeasible .workshop) [.optimal] =
        .error (.iterationLimitExceeded 1) := by
  have hrun : (Settings.convertToAny ⟨100, .dantzig⟩ (.basicFeasible .workshop) [.optimal]).map
      List.length = .ok 2 := by decide +kernel
  obtain ⟨steps, h, hlength⟩ := map_eq_ok.mp hrun
  obtain ⟨hthree, hfits, -⟩ := convertToAny_counted_iff .dantzig _ .optimal [] 3 100 h
  obtain ⟨hone, -, -⟩ := convertToAny_counted_iff .dantzig _ .optimal [] 1 100 h
  refine ⟨steps, hlength, h, ?_, ?_⟩
  · rw [hthree.mpr fun hle => hfits hle (.inl (Nat.le_refl 3)), if_pos (by omega)]
  · rw [hone.mpr (by omega), if_neg (by omega)]

/-- Two steps lead to the optimum, and a limit of two refuses them: the first iteration has three
steps inside it. -/
theorem Settings.not_counted_workshop :
    ∃ steps, Settings.convertToAny ⟨100, .dantzig⟩ (.basicFeasible .workshop) [.optimal] =
        .ok steps ∧ steps.length ≤ 2 ∧
      Settings.convertToAny ⟨2, .dantzig⟩ (.basicFeasible .workshop) [.optimal] =
        .error (.iterationLimitExceeded 2) := by
  have hrun : (Settings.convertToAny ⟨100, .dantzig⟩ (.basicFeasible .workshop) [.optimal]).map
      List.length = .ok 2 := by decide +kernel
  have hfails : (Settings.convertToAny ⟨2, .dantzig⟩ (.basicFeasible .workshop) [.optimal]).map
      List.length = .error (.iterationLimitExceeded 2) := by decide +kernel
  obtain ⟨steps, h, hlength⟩ := map_eq_ok.mp hrun
  exact ⟨steps, h, hlength.le, map_eq_error.mp hfails⟩

end ExactSimplex
