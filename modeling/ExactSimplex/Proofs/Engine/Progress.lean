import ExactSimplex.Proofs.Engine.Shown
import ExactSimplex.Proofs.Solution.Optimality

/-! Once the basis is accepted nothing goes wrong. From a canonical tableau an iteration fails
only for want of room, what it leads to is canonical again, and the solution can be read off
an optimal tableau because the objective of the basic solution is the right-hand side of
row 0. So a run to the solution comes to a terminal state or to its limit of steps. -/

namespace ExactSimplex

namespace Tableau.Reaches

variable {std : Program} {t : Tableau}

/-- The two ways to the value of the objective agree. -/
theorem readSolution_isOk (hr : (layout std).Reaches t) (hw : std.WellFormed)
    (heq : std.isStandard = true) :
    ∃ sol, t.readSolution = .ok sol ∧ t.rhs? 0 = some sol.objectiveValue := by
  have ht := hr.canonical
  have hrhs : t.rhs? 0 = some (t.rhs 0) :=
    rhs?_eq_rhs ht.rectangular hr.layout_rows_pos (by rw [hr.columns]; simp)
  have hagree : t.objective.expression.eval (valueIn t.basicPoint) = t.rhs 0 := by
    obtain ⟨-, hz⟩ := hr.basicPoint_feasible hw heq
    rw [hr.objective]
    exact hz.symm
  refine ⟨⟨t.objective.goal, t.rhs 0, t.basicPoint, t.basisNames⟩, ?_, hrhs⟩
  unfold readSolution
  rw [ht.basis_eq hr.layout_rhsColumn_pos]
  simp only [bind, Except.bind, ht.basicValues_eq, hagree, hrhs, Option.getD_some, if_true]

end Tableau.Reaches

theorem StateKind.isTerminal_iff {k : StateKind} :
    k.isTerminal = true ↔ k = .solution ∨ k = .unbounded := by
  cases k <;> decide

theorem stopsAt_solution (kind : StateKind) : stopsAt [.solution] kind = kind.isTerminal := by
  cases kind <;> rfl

/-- With so much room left, a run to the solution comes to a terminal state, unless the room
runs out. -/
def Settings.Settles (s : Settings) (budget : Nat) (state : State) : Prop :=
  (∃ steps, driveTowards s.apply s.maxSteps .solution [.solution] budget state = .ok steps ∧
    ((finalState? steps).getD state).kind.isTerminal = true) ∨
  driveTowards s.apply s.maxSteps .solution [.solution] budget state =
    .error (.iterationLimitExceeded s.maxSteps)

namespace Settings

variable {s : Settings} {budget : Nat} {state : State} {step : Step} {c : Conversion}

theorem settles_zero (h : state.kind.isTerminal = false) : s.Settles 0 state := by
  have hgo : ¬ stopsAt [.solution] state.kind = true := by simp [stopsAt_solution, h]
  exact .inr (by rw [driveTowards_eq, if_neg hgo])

theorem settles_terminal (h : state.kind.isTerminal = true) : s.Settles budget state :=
  .inl ⟨[], driveTowards_stop (by rw [stopsAt_solution, h]), h⟩

/-- A run settles when its next conversion succeeds and the run from there settles. -/
theorem Settles.cons (hnext : nextConversion state.kind .solution = .ok c)
    (hgo : stopsAt [.solution] state.kind = false) (happ : s.apply c state = .ok step)
    (h : s.Settles budget step.result) : s.Settles (budget + 1) state := by
  unfold Settles
  rw [driveTowards_succ hgo hnext, happ]
  rcases h with ⟨steps, hrun, hterminal⟩ | hroom
  · refine .inl ⟨step :: steps, by simp only [Except.bind, hrun]; rfl, ?_⟩
    rw [getD_finalState?_cons]
    exact hterminal
  · exact .inr (by simp only [Except.bind, hroom]; rfl)

variable {std : Program} {t : Tableau}

theorem settles_optimal (hr : (Tableau.layout std).Reaches t) (hw : std.WellFormed)
    (heq : std.isStandard = true) : s.Settles budget (.optimal t) := by
  cases budget with
  | zero => exact settles_zero rfl
  | succ budget =>
    obtain ⟨sol, hread, -⟩ := hr.readSolution_isOk hw heq
    have happ : s.apply .readSolution (.optimal t) = .ok sol.readingStep :=
      mapError_eq_ok.mpr (map_eq_ok.mpr ⟨sol, hread, rfl⟩)
    exact .cons (nextConversion_solution _) rfl happ (settles_terminal rfl)

/-- However many iterations the room allows, none of them fails for another reason. -/
theorem settles_basicFeasible (hr : (Tableau.layout std).Reaches t) (hw : std.WellFormed)
    (heq : std.isStandard = true) (budget : Nat) : s.Settles budget (.basicFeasible t) := by
  induction budget generalizing t with
  | zero => exact settles_zero rfl
  | succ budget ih =>
    have hnext := nextConversion_solution (State.basicFeasible t).kind
    rcases iterate_eq_ok_or_limit s hr.canonical with ⟨step, hstep, hadv⟩ | hroom
    · refine .cons hnext rfl hstep ?_
      generalize step.result = state at hadv
      cases hadv with
      | optimal => exact settles_optimal hr hw heq
      | unbounded => exact settles_terminal rfl
      | exchange he hl => exact ih (hr.exchange he.lt hl)
    · refine .inr ?_
      rw [driveTowards_succ rfl hnext, show s.apply .iterate (.basicFeasible t) = _ from hroom]
      rfl

end Settings

/-- Once the basis of the tableau of a well-formed program is accepted, a run to the solution
ends with a solution or an unbounded verdict, or it reaches its limit of steps and fails with
that limit; there is no other failure. On every optimal tableau that a run shows, whatever
its targets are, the solution can be read and has the objective's value from row 0. -/
theorem Settings.convertTo_solution_of_accepted (s : Settings) (p : Program) (hw : p.WellFormed)
    {std : Program} {t : Tableau} {accepted : Step} (hstd : p.standardize = .ok std)
    (hbuilt : Tableau.ofProgram std = .ok t) (haccept : t.acceptBasisStep = .ok accepted) :
    ((∃ steps final, s.convertTo accepted.result .solution = .ok steps ∧
        finalState? steps = some final ∧ (final.kind = .solution ∨ final.kind = .unbounded)) ∨
      s.convertTo accepted.result .solution = .error (.iterationLimitExceeded s.maxSteps)) ∧
    ∀ targets steps u, s.convertToAny accepted.result targets = .ok steps →
      Shows steps (.optimal u) →
        ∃ sol, u.readSolution = .ok sol ∧ u.rhs? 0 = some sol.objectiveValue := by
  obtain ⟨added, hform⟩ := Program.standardized_of_standardize hstd
  obtain rfl : Tableau.layout std = t :=
    Except.ok.inj ((Program.ofProgram_of_standardize hstd).symm.trans hbuilt)
  obtain ⟨hf, hres⟩ := Tableau.acceptBasisStep_eq_ok haccept
  have hwf := hform.wellFormed hw
  have hstart := Tableau.Reaches.refl (Tableau.layout_canonical hwf hf)
  rw [hres]
  refine ⟨?_, fun targets steps u hrun hshows => ?_⟩
  · rcases settles_basicFeasible (s := s) hstart hwf hform.isStandard s.maxSteps with
      ⟨steps, hrun, hterminal⟩ | hroom
    · cases hlast : finalState? steps with
      | none => rw [hlast] at hterminal; cases hterminal
      | some final =>
        rw [hlast] at hterminal
        exact .inl ⟨steps, final, hrun, hlast, StateKind.isTerminal_iff.mp hterminal⟩
    · exact .inr hroom
  · have hbecomes : (Tableau.layout std).Becomes s.rule (.optimal u) :=
      convertToAny_shows (fun _ _ hb happ => hb.applied (Tableau.layout_canonical hwf) happ) hrun
        (.basicFeasible hstart) hshows
    cases hbecomes with
    | optimal hr => exact hr.readSolution_isOk hwf hform.isStandard

/-- The corner under Bland's rule, with room for three steps only. -/
theorem Settings.convertTo_solution_of_accepted_corner :
    Program.corner.WellFormed ∧ ∃ std t accepted, Program.corner.standardize = .ok std ∧
      Tableau.ofProgram std = .ok t ∧ t.acceptBasisStep = .ok accepted ∧
      ((∃ steps final, Settings.convertTo ⟨3, .bland⟩ accepted.result .solution = .ok steps ∧
          finalState? steps = some final ∧ (final.kind = .solution ∨ final.kind = .unbounded)) ∨
        Settings.convertTo ⟨3, .bland⟩ accepted.result .solution =
          .error (.iterationLimitExceeded 3)) ∧
      ∀ targets steps u,
        Settings.convertToAny ⟨3, .bland⟩ accepted.result targets = .ok steps →
          Shows steps (.optimal u) →
            ∃ sol, u.readSolution = .ok sol ∧ u.rhs? 0 = some sol.objectiveValue := by
  have hw : Program.corner.WellFormed := by decide +kernel
  have hstart : Program.corner.standardize.map (fun std => (Tableau.layout std).startFailure?) =
      .ok none := by decide +kernel
  obtain ⟨std, hstd, hf⟩ := map_eq_ok.mp hstart
  have hbuilt := Program.ofProgram_of_standardize hstd
  obtain ⟨accepted, haccept, -⟩ := Tableau.acceptBasisStep_isOk hf
  exact ⟨hw, std, _, accepted, hstd, hbuilt, haccept,
    Settings.convertTo_solution_of_accepted _ _ hw hstd hbuilt haccept⟩

end ExactSimplex
