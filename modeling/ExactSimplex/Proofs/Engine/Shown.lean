import ExactSimplex.Proofs.Engine.Reached
import ExactSimplex.Proofs.Solution.Points

/-! What a run shows: the results of its steps and, inside iterations, those of the finer
steps. The finer steps are conversions like the others, so what every conversion keeps holds
of every state shown. From a well-formed program each tableau shown is therefore one that
pivots lead to from the tableau that was built, and its basis would be accepted again,
although nothing in a run checks it after the start. -/

namespace ExactSimplex

/-- A list of steps shows the results of its steps and what their finer steps show. -/
inductive Shows : List Step → State → Prop
  | result {steps : List Step} {step : Step} : step ∈ steps → Shows steps step.result
  | inside {steps : List Step} {step : Step} {state : State} :
      step ∈ steps → Shows step.substeps state → Shows steps state

/-- A tableau of a run from a program: the columns of the tableau that was built, a row of
that length for the objective and for each constraint, the unit column of the objective and
a basis that is accepted, each row giving its variable a value that is not negative. -/
structure Tableau.FeasibleFor (t : Tableau) (p : Program) (built : Tableau) : Prop where
  columns : t.columns = built.columns
  rectangular : ∀ row ∈ t.rows, row.length = built.columns.length
  rows : t.rows.length = p.constraints.length + 1
  objectiveColumn : ∀ i, i < t.rows.length → t.cell? i 0 = some (if i = 0 then 1 else 0)
  basis : ∀ i, 0 < i → i < t.rows.length →
    (∃ name, t.basicVariable? i = some name) ∧ ∃ b, t.rhs? i = some b ∧ 0 ≤ b
  accepted : ∃ step, t.acceptBasisStep = .ok step ∧ step.result = .basicFeasible t

/-- The kinds of states whose tableau is one of a basic feasible solution. -/
def StateKind.feasibleKinds : List StateKind :=
  [basicFeasible, entering, leaving, pivoted, optimal, unbounded]

theorem not_shows_nil {state : State} : ¬ Shows [] state := by
  rintro (hmem | hmem) <;> cases hmem

variable {iterate iterate' : Tableau → Except ChainError Step} {rule : PivotRule}
  {state final : State} {step : Step} {steps : List Step} {s : Settings} {p : Program}
  {start t : Tableau} {targets : List StateKind}

/-! ## Finer steps -/

/-- Only an iteration has finer steps. -/
theorem Applied.substeps (h : Applied iterate rule state step) :
    step.substeps = [] ∨ ∃ t, state = .basicFeasible t ∧ iterate t = .ok step := by
  cases h with
  | standardize h => obtain ⟨_, -, rfl⟩ := map_eq_ok.mp h; exact .inl rfl
  | layOut h => obtain ⟨_, -, rfl⟩ := map_eq_ok.mp h; exact .inl rfl
  | acceptBasis h =>
    unfold Tableau.acceptBasisStep at h
    split at h
    · cases h
    · exact .inl (Except.ok.inj h ▸ rfl)
  | iterate h => exact .inr ⟨_, rfl, h⟩
  | pickEntering =>
    refine .inl ?_
    unfold Tableau.pickEnteringStep
    split <;> rfl
  | findLeaving h =>
    obtain ⟨_, -, h⟩ := bind_eq_ok.mp h
    obtain ⟨choice, -, h⟩ := bind_eq_ok.mp h
    cases choice <;> exact .inl (Except.ok.inj h ▸ rfl)
  | pivot h => obtain ⟨_, -, rfl⟩ := map_eq_ok.mp h; exact .inl rfl
  | resume => exact .inl rfl
  | readSolution h => obtain ⟨_, -, rfl⟩ := map_eq_ok.mp h; exact .inl rfl

/-- A way to make iterations that can do less applies no other conversions. -/
theorem Applied.mono (h : Applied iterate rule state step)
    (hle : ∀ t step, iterate t = .ok step → iterate' t = .ok step) :
    Applied iterate' rule state step := by
  cases h with
  | standardize h => exact .standardize h
  | layOut h => exact .layOut h
  | acceptBasis h => exact .acceptBasis h
  | iterate h => exact .iterate (hle _ _ h)
  | pickEntering => exact .pickEntering
  | findLeaving h => exact .findLeaving h
  | pivot h => exact .pivot h
  | resume => exact .resume
  | readSolution h => exact .readSolution h

namespace Settings

/-- A conversion inside an iteration is one that the run could apply, without finer steps. -/
theorem applied_of_innerApply {c : Conversion} (h : s.innerApply c state = .ok step) :
    Applied s.iterate s.rule state step ∧ step.substeps = [] := by
  have happ := applyWith_eq_ok h
  refine ⟨happ.mono nofun, happ.substeps.resolve_right ?_⟩
  rintro ⟨t, -, hrefused⟩
  cases hrefused

section Invariant

variable {Inv : State → Prop}

/-- Each step of a run is a conversion applied where the invariant holds. -/
theorem exists_applied
    (hstep : ∀ state step, Inv state → Applied s.iterate s.rule state step → Inv step.result)
    (h : s.convertToAny state targets = .ok steps) (hi : Inv state) :
    ∀ step ∈ steps, ∃ before, Inv before ∧ Applied s.iterate s.rule before step := by
  cases targets with
  | nil =>
    obtain rfl : [] = steps := Except.ok.inj h
    simp
  | cons goal others =>
    intro step hmem
    obtain ⟨c, before, hbefore, happ⟩ := driveTowards_applied
      (fun c before step hb happ => hstep before step hb (applyWith_eq_ok happ)) h hi step hmem
    exact ⟨before, hbefore, applyWith_eq_ok happ⟩

/-- So is each finer step of an iteration. -/
theorem exists_applied_inside
    (hstep : ∀ state step, Inv state → Applied s.iterate s.rule state step → Inv step.result)
    (h : s.iterate t = .ok step) (hi : Inv (.basicFeasible t)) :
    ∀ inner ∈ step.substeps,
      inner.substeps = [] ∧ ∃ before, Inv before ∧ Applied s.iterate s.rule before inner := by
  intro inner hmem
  obtain ⟨c, before, hbefore, happ⟩ := driveTowards_applied
    (fun c before step hb happ => hstep before step hb (applied_of_innerApply happ).1)
    (iterateWith_eq_ok h).1 hi inner hmem
  obtain ⟨happ, hnone⟩ := applied_of_innerApply happ
  exact ⟨hnone, before, hbefore, happ⟩

/-- What every conversion keeps holds of every state that a run shows. -/
theorem convertToAny_shows
    (hstep : ∀ state step, Inv state → Applied s.iterate s.rule state step → Inv step.result)
    (h : s.convertToAny state targets = .ok steps) (hi : Inv state)
    (hshows : Shows steps final) : Inv final := by
  cases hshows with
  | result hmem =>
    obtain ⟨before, hbefore, happ⟩ := exists_applied hstep h hi _ hmem
    exact hstep before _ hbefore happ
  | inside hmem hshows =>
    obtain ⟨before, hbefore, happ⟩ := exists_applied hstep h hi _ hmem
    rcases happ.substeps with hnone | ⟨t, rfl, hiter⟩
    · exact absurd hshows (hnone ▸ not_shows_nil)
    · cases hshows with
      | result hinner =>
        obtain ⟨-, before, hbefore, happ⟩ := exists_applied_inside hstep hiter hbefore _ hinner
        exact hstep before _ hbefore happ
      | inside hinner hshows =>
        obtain ⟨hnone, -⟩ := exists_applied_inside hstep hiter hbefore _ hinner
        exact absurd hshows (hnone ▸ not_shows_nil)

end Invariant

end Settings

/-! ## Tableaux of a run -/

/-- A state of one of these kinds carries a tableau that pivots lead to. -/
theorem Tableau.Becomes.exists_tableau (h : start.Becomes rule state)
    (hkind : state.kind ∈ StateKind.feasibleKinds) :
    ∃ t, state.tableau? = some t ∧ start.Reaches t := by
  cases h with
  | basicFeasible hr => exact ⟨_, rfl, hr⟩
  | entering hr => exact ⟨_, rfl, hr⟩
  | leaving hr => exact ⟨_, rfl, hr⟩
  | pivoted hr => exact ⟨_, rfl, hr⟩
  | optimal hr => exact ⟨_, rfl, hr⟩
  | unbounded hr => exact ⟨_, rfl, hr⟩
  | unknown => simp [State.kind, StateKind.feasibleKinds] at hkind
  | solution => simp [State.kind, StateKind.feasibleKinds] at hkind

theorem Program.ofProgram_of_standardize {std : Program} (h : p.standardize = .ok std) :
    Tableau.ofProgram std = .ok (Tableau.layout std) := by
  obtain ⟨added, hform⟩ := standardized_of_standardize h
  exact Tableau.ofProgram_eq_ok_iff.mpr ⟨hform.isStandard, rfl⟩

theorem Tableau.Reaches.feasibleFor {std : Program} (hr : (layout std).Reaches t)
    (hlen : std.constraints.length = p.constraints.length) :
    t.FeasibleFor p (layout std) where
  columns := hr.columns
  rectangular row hrow := by rw [← hr.columns]; exact hr.canonical.rectangular row hrow
  rows := by rw [hr.rows, layout_rows_length, hlen]
  objectiveColumn := isUnitColumn_iff.mp hr.canonical.objectiveColumn
  basis i h0 hi := by
    refine ⟨⟨_, hr.canonical.basicVariable?_eq hr.layout_rhsColumn_pos hi⟩, t.rhs i, ?_,
      hr.canonical.rhs_nonneg h0 hi⟩
    exact rhs?_eq_rhs hr.canonical.rectangular hi (by rw [hr.columns]; simp)
  accepted := acceptBasisStep_isOk hr.canonical.feasible

/-- Every tableau that a run of a well-formed program shows, whatever its targets are, is one
of a basic feasible solution: those before and after each choice, each pivot and at the end,
in the steps of the run and inside its iterations. -/
theorem Settings.feasibleFor_of_shows (s : Settings) (p : Program) (hw : p.WellFormed)
    (targets : List StateKind) {steps : List Step}
    (hrun : s.convertToAny (.program p) targets = .ok steps) {state : State}
    (hshows : Shows steps state) (hkind : state.kind ∈ StateKind.feasibleKinds) :
    ∃ std built t, p.standardize = .ok std ∧ Tableau.ofProgram std = .ok built ∧
      state.tableau? = some t ∧ t.FeasibleFor p built := by
  have hbecomes : p.Becomes s.rule state :=
    convertToAny_shows (fun _ _ hb happ => hb.applied hw happ) hrun .program hshows
  cases hbecomes with
  | program => simp [State.kind, StateKind.feasibleKinds] at hkind
  | standard => simp [State.kind, StateKind.feasibleKinds] at hkind
  | tableau hstd hbecomes =>
    obtain ⟨t, ht, hr⟩ := hbecomes.exists_tableau hkind
    obtain ⟨added, hform⟩ := Program.standardized_of_standardize hstd
    exact ⟨_, _, t, hstd, Program.ofProgram_of_standardize hstd, ht,
      hr.feasibleFor hform.closes.length_eq⟩

/-- A corner of three constraints in which two rows tie and one ratio is zero. -/
def Program.corner : Program where
  objective := ⟨.max, "z", .ofTerms [("x1", 1), ("x2", 2)]⟩
  constraints := [⟨.ofTerms [("x1", -1), ("x2", 1)], .atMost, 0⟩,
    ⟨.ofTerms [("x1", 1), ("x2", 1)], .atMost, 2⟩, ⟨.ofTerms [("x1", 1)], .atMost, 1⟩]
  declarations := ⟨[("x1", .nonNegative), ("x2", .nonNegative)]⟩

/-- Two iterations lead from the corner to the solution; the tableaux in which they choose the
row that leaves are shown by their finer steps only. -/
theorem Settings.feasibleFor_of_shows_corner :
    Program.corner.WellFormed ∧ ∃ steps state,
      Settings.convertToAny ⟨100, .dantzig⟩ (.program .corner) [.solution, .pivoted] = .ok steps ∧
      Shows steps state ∧ state.kind = .leaving ∧
      ∃ std built t, Program.corner.standardize = .ok std ∧ Tableau.ofProgram std = .ok built ∧
        state.tableau? = some t ∧ t.FeasibleFor .corner built := by
  have hw : Program.corner.WellFormed := by decide +kernel
  have hkinds : (Settings.convertToAny ⟨100, .dantzig⟩ (.program .corner)
      [.solution, .pivoted]).map (fun steps => (steps.flatMap Step.substeps).map Step.kind) =
        .ok [.entering, .leaving, .pivoted, .entering, .leaving, .pivoted, .optimal] := by
    decide +kernel
  obtain ⟨steps, hrun, hkinds⟩ := map_eq_ok.mp hkinds
  have hmem : StateKind.leaving ∈ (steps.flatMap Step.substeps).map Step.kind := by
    rw [hkinds]; decide
  obtain ⟨inner, hinner, hkind⟩ := List.mem_map.mp hmem
  obtain ⟨outer, houter, hinner⟩ := List.mem_flatMap.mp hinner
  have hshows : Shows steps inner.result := .inside houter (.result hinner)
  refine ⟨hw, steps, inner.result, hrun, hshows, hkind, ?_⟩
  exact Settings.feasibleFor_of_shows _ _ hw _ hrun hshows
    (by rw [show inner.result.kind = .leaving from hkind]; decide)

end ExactSimplex
