import ExactSimplex.Proofs.Engine.Shown

/-! Conversions as the engine uses them. A step has the name of its conversion and leads to one of
few kinds of states, whatever the state holds. The plan only ever asks for conversions that start
from the kind at hand, so none is refused for being applied to a state of another kind. -/

namespace ExactSimplex

namespace Conversion

theorem name_injective {c d : Conversion} (h : c.name = d.name) : c = d := by
  cases c <;> cases d <;> first | rfl | simp [name] at h

/-- The kinds of states that a conversion may lead to, the usual one first. -/
def landings : Conversion → List StateKind
  | standardize => [.standardProgram]
  | layOut => [.unknownTableau]
  | acceptBasis => [.basicFeasible]
  | iterate => [.optimal, .basicFeasible, .unbounded]
  | pickEntering => [.entering, .optimal]
  | findLeaving => [.leaving, .unbounded]
  | pivot => [.pivoted]
  | resume => [.basicFeasible]
  | readSolution => [.solution]

theorem landings_head? (c : Conversion) : c.landings.head? = some c.target := by
  cases c <;> rfl

end Conversion

theorem State.kind_eq_basicFeasible {state : State} (h : state.kind = .basicFeasible) :
    ∃ t, state = .basicFeasible t := by
  cases state <;> first | exact ⟨_, rfl⟩ | cases h

/-- A step has the name of the conversion and leads where that may lead. -/
structure Step.MadeBy (step : Step) (c : Conversion) : Prop where
  name : step.name = c.name
  landing : step.kind ∈ c.landings

variable {iterate iterate' : Tableau → Except ChainError Step} {rule : PivotRule}
  {applier : Applier} {limit : Nat} {c : Conversion} {kind goal expected found : StateKind}
  {state : State} {step : Step} {t : Tableau} {s : Settings}

/-- A conversion that always leads to one kind leads there. -/
theorem Step.MadeBy.kind_eq (h : step.MadeBy c) (hlandings : c.landings = [kind]) :
    step.result.kind = kind :=
  List.mem_singleton.mp (hlandings ▸ h.landing)

/-! ## Steps -/

theorem Tableau.acceptBasisStep_madeBy (h : t.acceptBasisStep = .ok step) :
    step.MadeBy .acceptBasis := by
  unfold acceptBasisStep at h
  split at h
  · cases h
  · exact Except.ok.inj h ▸ ⟨rfl, .head _⟩

theorem Tableau.pickEnteringStep_madeBy (t : Tableau) (rule : PivotRule) :
    (t.pickEnteringStep rule).MadeBy .pickEntering := by
  unfold pickEnteringStep
  split
  · exact ⟨rfl, .tail _ (.head _)⟩
  · exact ⟨rfl, .head _⟩

theorem Entering.findLeavingStep_madeBy {e : Entering} (h : e.findLeavingStep rule = .ok step) :
    step.MadeBy .findLeaving := by
  obtain ⟨_, -, h⟩ := bind_eq_ok.mp h
  obtain ⟨choice, -, h⟩ := bind_eq_ok.mp h
  cases choice with
  | unbounded => exact Except.ok.inj h ▸ ⟨rfl, .tail _ (.head _)⟩
  | leaves => exact Except.ok.inj h ▸ ⟨rfl, .head _⟩

/-- Where an iteration ends, by the state in which the run inside it ended. -/
theorem iterationResult_eq_ok {last : Option State} {result : State}
    (h : iterationResult last = .ok result) :
    (∃ p, last = some (.pivoted p) ∧ result = .basicFeasible p.tableau) ∨
    (∃ t, last = some (.optimal t) ∧ result = .optimal t) ∨
    ∃ e, last = some (.unbounded e) ∧ result = .unbounded e := by
  unfold iterationResult at h
  split at h
  · exact .inl ⟨_, rfl, (Except.ok.inj h).symm⟩
  · exact .inr (.inl ⟨_, rfl, (Except.ok.inj h).symm⟩)
  · exact .inr (.inr ⟨_, rfl, (Except.ok.inj h).symm⟩)
  · cases h
  · cases h

theorem iterateWith_madeBy (h : iterateWith applier limit t = .ok step) :
    step.MadeBy .iterate := by
  obtain ⟨-, hresult, hname⟩ := iterateWith_eq_ok h
  refine ⟨hname, ?_⟩
  rw [Step.kind]
  rcases iterationResult_eq_ok hresult with ⟨_, -, hr⟩ | ⟨_, -, hr⟩ | ⟨_, -, hr⟩ <;> rw [hr]
  · exact .tail _ (.head _)
  · exact .head _
  · exact .tail _ (.tail _ (.head _))

/-- A conversion that succeeds was applied to a state of the kind that it starts from. -/
theorem applyWith_madeBy (hiterate : ∀ t step, iterate t = .ok step → step.MadeBy .iterate)
    (h : applyWith iterate rule c state = .ok step) : c.source = state.kind ∧ step.MadeBy c := by
  unfold applyWith at h
  split at h
  · obtain ⟨_, -, rfl⟩ := map_eq_ok.mp (mapError_eq_ok.mp h)
    exact ⟨rfl, rfl, .head _⟩
  · obtain ⟨_, -, rfl⟩ := map_eq_ok.mp (mapError_eq_ok.mp h)
    exact ⟨rfl, rfl, .head _⟩
  · exact ⟨rfl, Tableau.acceptBasisStep_madeBy (mapError_eq_ok.mp h)⟩
  · exact ⟨rfl, hiterate _ _ h⟩
  · exact ⟨rfl, Except.ok.inj h ▸ Tableau.pickEnteringStep_madeBy _ _⟩
  · exact ⟨rfl, Entering.findLeavingStep_madeBy (mapError_eq_ok.mp h)⟩
  · obtain ⟨_, -, rfl⟩ := map_eq_ok.mp (mapError_eq_ok.mp h)
    exact ⟨rfl, rfl, .head _⟩
  · exact ⟨rfl, Except.ok.inj h ▸ ⟨rfl, .head _⟩⟩
  · obtain ⟨_, -, rfl⟩ := map_eq_ok.mp (mapError_eq_ok.mp h)
    exact ⟨rfl, rfl, .head _⟩
  · cases h

/-- How iterations are made matters to no other conversion. -/
theorem applyWith_congr (h : c ≠ .iterate) :
    applyWith iterate rule c state = applyWith iterate' rule c state := by
  cases c <;> first | exact absurd rfl h | (cases state <;> rfl)

/-- A conversion applied to a state of its kind is not refused for the kind. -/
theorem applyWith_ne_mismatch (hsource : c.source = state.kind)
    (hiterate : ∀ t, c = .iterate → iterate t ≠ .error (.stateMismatch expected found)) :
    applyWith iterate rule c state ≠ .error (.stateMismatch expected found) := by
  intro h
  cases c <;> cases state <;> try (cases hsource; done)
  case iterate.basicFeasible t => exact hiterate t rfl h
  case pickEntering.basicFeasible => cases h
  case resume.pivoted => cases h
  all_goals
    obtain ⟨_, -, hcause⟩ := mapError_eq_error.mp h
    cases hcause

namespace Settings

theorem apply_madeBy (h : s.apply c state = .ok step) : c.source = state.kind ∧ step.MadeBy c :=
  applyWith_madeBy (fun _ _ h => iterateWith_madeBy h) h

theorem apply_eq_innerApply (h : c ≠ .iterate) : s.apply c state = s.innerApply c state :=
  applyWith_congr h

/-- Only an iteration has finer steps. -/
theorem substeps_eq_nil (h : s.apply c state = .ok step) (hc : c ≠ .iterate) :
    step.substeps = [] :=
  (applied_of_innerApply (apply_eq_innerApply hc ▸ h)).2

end Settings

/-! ## Plans -/

/-- The plan asks for a conversion that starts from the kind at hand, or there is none. -/
theorem nextConversion_cases (kind goal : StateKind) :
    (nextConversion kind goal).map Conversion.source = .ok kind ∨
      nextConversion kind goal = .error (.noPathFound kind goal) := by
  cases kind <;> cases goal <;> decide +kernel

theorem nextConversion_source (h : nextConversion kind goal = .ok c) : c.source = kind := by
  rcases nextConversion_cases kind goal with hsource | herror
  · rw [h] at hsource
    exact Except.ok.inj hsource
  · rw [h] at herror
    cases herror

theorem nextConversion_eq_error {e : ChainError} (h : nextConversion kind goal = .error e) :
    e = .noPathFound kind goal := by
  rcases nextConversion_cases kind goal with hsource | herror
  · rw [h] at hsource
    cases hsource
  · exact Except.error.inj (h.symm.trans herror)

end ExactSimplex
