import ExactSimplex.Proofs.Engine.Runs

/-! Inside an iteration, whatever its tableau holds. The run inside plans for a pivoted tableau. On
that way every conversion comes closer and none is an iteration, so the run is one of the engine
itself, it takes three steps at most, and it ends where the iteration can go on. -/

namespace ExactSimplex

/-- What comes next on the way to a pivoted tableau. -/
theorem nextConversion_pivoted (kind : StateKind) : nextConversion kind .pivoted =
    match kind with
    | .program => .ok .standardize
    | .standardProgram => .ok .layOut
    | .unknownTableau => .ok .acceptBasis
    | .basicFeasible => .ok .pickEntering
    | .entering => .ok .findLeaving
    | .leaving => .ok .pivot
    | kind => .error (.noPathFound kind .pivoted) := by
  cases kind <;> rfl

/-- How many conversions lead to a pivoted tableau; none where no way leads there. -/
def StateKind.untilPivoted : StateKind → Nat
  | program => 6
  | standardProgram => 5
  | unknownTableau => 4
  | basicFeasible => 3
  | entering => 2
  | leaving => 1
  | _ => 0

/-- The way to a pivoted tableau is no iteration, does not lead to a solution and grows shorter,
also where a conversion leads to another kind than it usually does. -/
theorem nextConversion_pivoted_spec {kind : StateKind} {c : Conversion}
    (h : nextConversion kind .pivoted = .ok c) :
    c ≠ .iterate ∧ ∀ landing ∈ c.landings,
      landing ≠ .solution ∧ landing.untilPivoted < kind.untilPivoted := by
  rw [nextConversion_pivoted] at h
  cases kind <;> cases h <;> decide

variable {s : Settings} {t : Tableau} {final : State} {step : Step} {steps : List Step}
  {expected found : StateKind}

/-! ## The run inside -/

/-- A run inside an iteration, with the state in which it ends. -/
inductive Step.Inside : List Step → State → Prop
  | optimal {first : Step} {t : Tableau} : first.MadeBy .pickEntering →
      first.result = .optimal t → Inside [first] (.optimal t)
  | unbounded {first second : Step} {e : Entering} : first.MadeBy .pickEntering →
      second.MadeBy .findLeaving → second.result = .unbounded e →
      Inside [first, second] (.unbounded e)
  | pivoted {first second third : Step} {p : Pivoted} : first.MadeBy .pickEntering →
      second.MadeBy .findLeaving → third.MadeBy .pivot → third.result = .pivoted p →
      Inside [first, second, third] (.pivoted p)

namespace Step.Inside

theorem finalState?_eq (h : Inside steps final) : finalState? steps = some final := by
  cases h <;> simp [finalState?, *]

theorem length_le (h : Inside steps final) : steps.length ≤ 3 := by
  cases h <;> simp

/-- All three steps are made only where the tableau is pivoted. -/
theorem length_le_two (h : Inside steps final) (hkind : final.kind ≠ .pivoted) :
    steps.length ≤ 2 := by
  cases h with
  | optimal => simp
  | unbounded => simp
  | pivoted => exact absurd rfl hkind

theorem kind_mem (h : Inside steps final) :
    final.kind ∈ [StateKind.pivoted, .optimal, .unbounded] := by
  cases h <;> simp [State.kind]

end Step.Inside

namespace Step.MadeBy

theorem entering_or_optimal (h : step.MadeBy .pickEntering) :
    (∃ e, step.result = .entering e) ∨ ∃ t, step.result = .optimal t := by
  have hlanding := h.landing
  cases hresult : step.result <;>
    simp [Step.kind, hresult, State.kind, Conversion.landings] at hlanding ⊢

theorem leaving_or_unbounded (h : step.MadeBy .findLeaving) :
    (∃ l, step.result = .leaving l) ∨ ∃ e, step.result = .unbounded e := by
  have hlanding := h.landing
  cases hresult : step.result <;>
    simp [Step.kind, hresult, State.kind, Conversion.landings] at hlanding ⊢

theorem exists_pivoted (h : step.MadeBy .pivot) : ∃ p, step.result = .pivoted p := by
  have hlanding := h.landing
  cases hresult : step.result <;>
    simp [Step.kind, hresult, State.kind, Conversion.landings] at hlanding ⊢

end Step.MadeBy

/-- The run inside an iteration goes on until the tableau is optimal or has been pivoted, or nothing
limits the entering variable. -/
theorem Runs.exists_inside
    (h : Runs s.apply .pivoted [.pivoted, .optimal, .unbounded] (.basicFeasible t) steps) :
    ∃ final, Step.Inside steps final := by
  obtain ⟨first, later, rfl, hfirst, hlater⟩ := h.eq_cons_made rfl (nextConversion_pivoted _)
  rcases hfirst.entering_or_optimal with ⟨e, hresult⟩ | ⟨t, hresult⟩
  case inr =>
    obtain rfl := hlater.eq_nil (by rw [hresult]; rfl)
    exact ⟨_, .optimal hfirst hresult⟩
  rw [hresult] at hlater
  obtain ⟨second, later, rfl, hsecond, hlater⟩ :=
    hlater.eq_cons_made rfl (nextConversion_pivoted _)
  rcases hsecond.leaving_or_unbounded with ⟨l, hresult⟩ | ⟨e, hresult⟩
  case inr =>
    obtain rfl := hlater.eq_nil (by rw [hresult]; rfl)
    exact ⟨_, .unbounded hfirst hsecond hresult⟩
  rw [hresult] at hlater
  obtain ⟨third, later, rfl, hthird, hlater⟩ :=
    hlater.eq_cons_made rfl (nextConversion_pivoted _)
  obtain ⟨p, hresult⟩ := hthird.exists_pivoted
  obtain rfl := hlater.eq_nil (by rw [hresult]; rfl)
  exact ⟨_, .pivoted hfirst hsecond hthird hresult⟩

/-! ## The iteration -/

namespace Settings

/-- The conversions inside an iteration are those of the engine: the applier that refuses iterations
is never asked for one. -/
theorem drive_innerApply (s : Settings) (state : State) :
    drive s.innerApply s.maxSteps state [.pivoted, .optimal, .unbounded] =
      s.convertToAny state [.pivoted, .optimal, .unbounded] :=
  driveTowards_congr _ _
    (fun _ _ hnext => (apply_eq_innerApply (nextConversion_pivoted_spec hnext).1).symm) _ _

/-- An iteration is made by the engine itself. -/
theorem iterate_eq (s : Settings) (t : Tableau) :
    s.iterate t = iterateWith s.apply s.maxSteps t := by
  rw [iterate, iterateWith, iterateWith, drive_innerApply]
  rfl

/-- What is known of an iteration that succeeds. -/
theorem iterate_eq_ok (h : s.iterate t = .ok step) :
    Runs s.apply .pivoted [.pivoted, .optimal, .unbounded] (.basicFeasible t) step.substeps ∧
      step.substeps.length ≤ s.maxSteps ∧ ∃ last, Step.Inside step.substeps last ∧
        iterationResult (some last) = .ok step.result := by
  obtain ⟨hrun, hresult, -⟩ := iterateWith_eq_ok h
  rw [drive_innerApply] at hrun
  obtain ⟨hruns, hlength⟩ := runs_of_driveTowards hrun
  obtain ⟨last, hinside⟩ := hruns.exists_inside
  rw [hinside.finalState?_eq] at hresult
  exact ⟨hruns, hlength, last, hinside, hresult⟩

/-- No iteration asks for a state of another kind than it has. -/
theorem iterate_ne_mismatch (s : Settings) (t : Tableau) :
    s.iterate t ≠ .error (.stateMismatch expected found) := by
  intro h
  rcases bind_eq_error.mp h with hrun | ⟨steps, hrun, hresult⟩
  · rcases driveTowards_eq_error hrun with hlimit | ⟨kind, hway⟩ | ⟨c, before, hnext, happ⟩
    · cases hlimit
    · cases hway
    · exact applyWith_ne_mismatch (nextConversion_source hnext)
        (fun _ hc => absurd hc (nextConversion_pivoted_spec hnext).1) happ
  · rw [drive_innerApply] at hrun
    obtain ⟨last, hinside⟩ := (runs_of_driveTowards hrun).1.exists_inside
    rw [show steps.getLast?.map Step.result = some last from hinside.finalState?_eq] at hresult
    cases hinside <;> cases hresult

end Settings

end ExactSimplex
