import ExactSimplex.Proofs.Engine.Conversions

/-! Runs apart from their limit. A run is a list of steps, each made by the conversion that the plan
asks for, up to the first state at which it stops. The engine with a limit makes such a run or
fails, and given a run it is known under every limit what the engine does. Two runs of which the
one is planned for a goal on the other's way go together until the first stops. -/

namespace ExactSimplex

/-- A run from a state to its end, without a limit. -/
inductive Runs (applier : Applier) (goal : StateKind) (targets : List StateKind) :
    State → List Step → Prop
  | stop {state : State} : stopsAt targets state.kind = true → Runs applier goal targets state []
  | step {state : State} {c : Conversion} {step : Step} {later : List Step} :
      stopsAt targets state.kind = false → nextConversion state.kind goal = .ok c →
      applier c state = .ok step → Runs applier goal targets step.result later →
      Runs applier goal targets state (step :: later)

theorem stopsAt_iff {targets : List StateKind} {kind : StateKind} :
    stopsAt targets kind = true ↔ kind ∈ targets ∨ kind.isTerminal = true := by
  simp [stopsAt]

theorem stopsAt_eq_false_iff {targets : List StateKind} {kind : StateKind} :
    stopsAt targets kind = false ↔ kind ∉ targets ∧ kind.isTerminal = false := by
  simp [stopsAt]

variable {applier applier' : Applier} {limit budget : Nat} {goal goal' : StateKind}
  {targets targets' : List StateKind} {state : State} {step : Step} {steps : List Step}
  {first later whole : List Step}

/-! ## The engine makes runs -/

theorem driveTowards_congr (limit : Nat) (targets : List StateKind)
    (h : ∀ c state, nextConversion state.kind goal = .ok c → applier c state = applier' c state)
    (budget : Nat) (state : State) :
    driveTowards applier limit goal targets budget state =
      driveTowards applier' limit goal targets budget state := by
  induction budget generalizing state with
  | zero => rw [driveTowards_eq, driveTowards_eq]
  | succ budget ih =>
    cases hgo : stopsAt targets state.kind with
    | true => rw [driveTowards_stop hgo, driveTowards_stop hgo]
    | false =>
      cases hnext : nextConversion state.kind goal with
      | error e => rw [driveTowards_eq, driveTowards_eq, hnext]; rfl
      | ok c =>
        rw [driveTowards_succ hgo hnext, driveTowards_succ hgo hnext, h c state hnext]
        simp only [ih]

/-- A run of the engine fails for want of room, for want of a way, or because a conversion that is
asked for does. -/
theorem driveTowards_eq_error {e : ChainError}
    (h : driveTowards applier limit goal targets budget state = .error e) :
    e = .iterationLimitExceeded limit ∨ (∃ kind, e = .noPathFound kind goal) ∨
      ∃ c before, nextConversion before.kind goal = .ok c ∧ applier c before = .error e := by
  induction budget generalizing state with
  | zero =>
    rw [driveTowards_eq] at h
    split at h
    · cases h
    · exact .inl (Except.error.inj h).symm
  | succ budget ih =>
    rw [driveTowards_eq] at h
    split at h
    · cases h
    · rcases bind_eq_error.mp h with hnext | ⟨c, hnext, h⟩
      · exact .inr (.inl ⟨_, nextConversion_eq_error hnext⟩)
      · rcases bind_eq_error.mp h with happ | ⟨step, -, h⟩
        · exact .inr (.inr ⟨c, state, hnext, happ⟩)
        · exact ih (map_eq_error.mp h)

theorem runs_of_driveTowards
    (h : driveTowards applier limit goal targets budget state = .ok steps) :
    Runs applier goal targets state steps ∧ steps.length ≤ budget := by
  induction budget generalizing state steps with
  | zero =>
    rcases driveTowards_eq_ok h with ⟨hstop, rfl⟩ | ⟨-, _, _, _, _, hz, -⟩
    · exact ⟨.stop hstop, Nat.le_refl _⟩
    · omega
  | succ budget ih =>
    rcases driveTowards_eq_ok h with ⟨hstop, rfl⟩ | ⟨hgo, left, c, step, later, hz, hc, hs, hl, rfl⟩
    · exact ⟨.stop hstop, Nat.zero_le _⟩
    · obtain rfl : left = budget := by omega
      obtain ⟨hruns, hlength⟩ := ih hl
      exact ⟨.step hgo hc hs hruns, Nat.succ_le_succ hlength⟩

namespace Runs

/-- What the engine does under a limit for which there is a run without one, when the conversions
fail for want of room precisely where their steps do not fit. -/
theorem driveTowards_eq {fits : Step → Prop} [DecidablePred fits]
    (h : Runs applier goal targets state steps)
    (hfits : ∀ c state step, applier c state = .ok step → applier' c state =
      if fits step then .ok step else .error (.iterationLimitExceeded limit)) (budget : Nat) :
    driveTowards applier' limit goal targets budget state =
      if steps.length ≤ budget ∧ ∀ step ∈ steps, fits step then .ok steps
      else .error (.iterationLimitExceeded limit) := by
  induction h generalizing budget with
  | stop hstop => rw [driveTowards_stop hstop, if_pos (by simp)]
  | @step state c step later hgo hnext happ _ ih =>
    cases budget with
    | zero => rw [ExactSimplex.driveTowards_eq, if_neg (by simp [hgo]), if_neg (by simp)]
    | succ budget =>
      rw [driveTowards_succ hgo hnext, hfits _ _ _ happ]
      by_cases hstep : fits step
      · rw [if_pos hstep]
        simp only [Except.bind, ih, List.length_cons, Nat.succ_le_succ_iff, List.forall_mem_cons,
          hstep, true_and]
        by_cases hroom : later.length ≤ budget ∧ ∀ step ∈ later, fits step
        · rw [if_pos hroom, if_pos hroom]
          rfl
        · rw [if_neg hroom, if_neg hroom]
          rfl
      · rw [if_neg hstep, if_neg (by simp [hstep])]
        rfl

/-! ## The states of a run -/

/-- Each step was made by the conversion that was asked for in the state before it, where the run
did not stop. -/
theorem applied (h : Runs applier goal targets state steps) {i : Nat} {before : State}
    (hstep : steps[i]? = some step)
    (hbefore : (state :: steps.map Step.result)[i]? = some before) :
    stopsAt targets before.kind = false ∧
      ∃ c, nextConversion before.kind goal = .ok c ∧ applier c before = .ok step := by
  induction h generalizing i with
  | stop => simp at hstep
  | step hgo hnext happ _ ih =>
    cases i with
    | zero =>
      obtain rfl := Option.some.inj hstep
      obtain rfl := Option.some.inj hbefore
      exact ⟨hgo, _, hnext, happ⟩
    | succ i => exact ih hstep hbefore

theorem exists_applied (h : Runs applier goal targets state steps) (hmem : step ∈ steps) :
    ∃ c before, nextConversion before.kind goal = .ok c ∧ applier c before = .ok step := by
  obtain ⟨i, hi, rfl⟩ := List.getElem_of_mem hmem
  have hbefore : i < (state :: steps.map Step.result).length := by simp; omega
  obtain ⟨-, c, hc⟩ := h.applied (List.getElem?_eq_getElem hi) (List.getElem?_eq_getElem hbefore)
  exact ⟨c, _, hc⟩

theorem stopsAt_final (h : Runs applier goal targets state steps) :
    stopsAt targets ((finalState? steps).getD state).kind = true := by
  induction h with
  | stop hstop => exact hstop
  | step _ _ _ _ ih => rwa [getD_finalState?_cons]

theorem eq_nil (h : Runs applier goal targets state steps)
    (hstop : stopsAt targets state.kind = true) : steps = [] := by
  cases h with
  | stop => rfl
  | step hgo => rw [hgo] at hstop; cases hstop

theorem eq_cons {c : Conversion} (h : Runs applier goal targets state steps)
    (hgo : stopsAt targets state.kind = false) (hnext : nextConversion state.kind goal = .ok c) :
    ∃ step later, steps = step :: later ∧ applier c state = .ok step ∧
      Runs applier goal targets step.result later := by
  cases h with
  | stop hstop => rw [hstop] at hgo; cases hgo
  | step _ hnext' happ hlater =>
    obtain rfl := Except.ok.inj (hnext.symm.trans hnext')
    exact ⟨_, _, rfl, happ, hlater⟩

theorem eq_cons_made {s : Settings} {c : Conversion} (h : Runs s.apply goal targets state steps)
    (hgo : stopsAt targets state.kind = false) (hnext : nextConversion state.kind goal = .ok c) :
    ∃ step later, steps = step :: later ∧ step.MadeBy c ∧
      Runs s.apply goal targets step.result later := by
  obtain ⟨step, later, rfl, happ, hlater⟩ := h.eq_cons hgo hnext
  exact ⟨step, later, rfl, (Settings.apply_madeBy happ).2, hlater⟩

end Runs

/-! ## Two goals -/

/-- On these kinds of states a run to the first goal does as a run to the second until it stops, and
it stays on them. -/
def SameWay (On : StateKind → Prop) (goal : StateKind) (targets : List StateKind)
    (goal' : StateKind) (targets' : List StateKind) : Prop :=
  ∀ kind c, On kind → stopsAt targets kind = false → nextConversion kind goal = .ok c →
    stopsAt targets' kind = false ∧ nextConversion kind goal' = .ok c ∧
      ∀ landing ∈ c.landings, On landing

namespace SameWay

variable {On : StateKind → Prop}

/-- There are few kinds and few conversions to look at. -/
instance [DecidablePred On] : Decidable (SameWay On goal targets goal' targets') :=
  decidable_of_iff (∀ kind ∈ StateKind.all, ∀ c ∈ Conversion.all, On kind →
      stopsAt targets kind = false → nextConversion kind goal = .ok c →
        stopsAt targets' kind = false ∧ nextConversion kind goal' = .ok c ∧
          ∀ landing ∈ c.landings, On landing)
    ⟨fun h kind c => h kind kind.mem_all c c.mem_all, fun h kind _ c _ => h kind c⟩

/-- A run ends on the kinds that it stays on. -/
theorem final (hway : SameWay On goal targets goal' targets')
    (hmade : ∀ c state step, applier c state = .ok step → step.MadeBy c)
    (h : Runs applier goal targets state first) (hon : On state.kind) :
    On ((finalState? first).getD state).kind := by
  induction h with
  | stop => exact hon
  | step hgo hnext happ _ ih =>
    obtain ⟨-, -, hlandings⟩ := hway _ _ hon hgo hnext
    rw [getD_finalState?_cons]
    exact ih (hlandings _ (hmade _ _ _ happ).landing)

/-- A run to the first goal is the beginning of a run to the second, which goes on from its end. -/
theorem split (hway : SameWay On goal targets goal' targets')
    (hmade : ∀ c state step, applier c state = .ok step → step.MadeBy c)
    (h : Runs applier goal targets state first) (hwhole : Runs applier goal' targets' state whole)
    (hon : On state.kind) :
    ∃ later, whole = first ++ later ∧
      Runs applier goal' targets' ((finalState? first).getD state) later := by
  induction h generalizing whole with
  | stop => exact ⟨whole, rfl, hwhole⟩
  | step hgo hnext happ _ ih =>
    obtain ⟨hgo', hnext', hlandings⟩ := hway _ _ hon hgo hnext
    obtain ⟨step', rest, rfl, happ', hrest⟩ := hwhole.eq_cons hgo' hnext'
    obtain rfl := Except.ok.inj (happ.symm.trans happ')
    obtain ⟨later, rfl, hlater⟩ := ih hrest (hlandings _ (hmade _ _ _ happ).landing)
    rw [getD_finalState?_cons]
    exact ⟨later, rfl, hlater⟩

/-- A run to the first goal and one to the second from its end are a run to the second. -/
theorem append (hway : SameWay On goal targets goal' targets')
    (hmade : ∀ c state step, applier c state = .ok step → step.MadeBy c)
    (h : Runs applier goal targets state first)
    (hlater : Runs applier goal' targets' ((finalState? first).getD state) later)
    (hon : On state.kind) : Runs applier goal' targets' state (first ++ later) := by
  induction h with
  | stop => exact hlater
  | step hgo hnext happ _ ih =>
    obtain ⟨hgo', hnext', hlandings⟩ := hway _ _ hon hgo hnext
    rw [getD_finalState?_cons] at hlater
    exact .step hgo' hnext' happ (ih hlater (hlandings _ (hmade _ _ _ happ).landing))

end SameWay

end ExactSimplex
