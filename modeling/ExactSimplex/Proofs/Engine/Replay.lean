import ExactSimplex.Proofs.Engine.Limit

/-! Traces can be replayed. Every step that the engine reports is what the registered conversion of
its name makes of the state before it; the engine goes on exactly until a target or a state from
which nothing leads on, and more room does not change the trace. It never applies a conversion to a
state of another kind than the conversion starts from. -/

namespace ExactSimplex

variable {s : Settings} {state before : State} {targets : List StateKind} {step : Step}
  {steps : List Step} {expected found : StateKind}

/-- The steps lead from the state to the first state of a target kind or without a way on, and each
can be made again from the state before it by its name. -/
structure Settings.Replays (s : Settings) (targets : List StateKind) (state : State)
    (steps : List Step) : Prop where
  made : ∀ {i : Nat} {step : Step} {before : State}, steps[i]? = some step →
    (state :: steps.map Step.result)[i]? = some before →
    ∃ c, (∀ d ∈ Conversion.all, d.name = step.name ↔ d = c) ∧ c.source = before.kind ∧
      s.apply c before = .ok step
  goesOn : ∀ {i : Nat} {before : State}, i < steps.length →
    (state :: steps.map Step.result)[i]? = some before →
    before.kind ∉ targets ∧ before.kind.isTerminal = false
  stops : ((finalState? steps).getD state).kind ∈ targets ∨
    ((finalState? steps).getD state).kind.isTerminal = true

theorem Runs.replays {goal : StateKind} (h : Runs s.apply goal targets state steps) :
    s.Replays targets state steps where
  made hstep hbefore := by
    obtain ⟨-, c, -, happ⟩ := h.applied hstep hbefore
    obtain ⟨hsource, hmade⟩ := Settings.apply_madeBy happ
    refine ⟨c, fun d _ => ⟨fun hname => ?_, fun hd => ?_⟩, hsource, happ⟩
    · exact Conversion.name_injective (hname.trans hmade.name)
    · rw [hd, hmade.name]
  goesOn hi hbefore :=
    stopsAt_eq_false_iff.mp (h.applied (List.getElem?_eq_getElem hi) hbefore).1
  stops := stopsAt_iff.mp h.stopsAt_final

namespace Settings

/-- The engine asks for conversions that start from the kind at hand only. -/
theorem convertToAny_ne_mismatch (s : Settings) (state : State) (targets : List StateKind) :
    s.convertToAny state targets ≠ .error (.stateMismatch expected found) := by
  intro h
  cases targets with
  | nil => cases h
  | cons goal others =>
    rcases driveTowards_eq_error h with hlimit | ⟨_, hway⟩ | ⟨c, before, hnext, happ⟩
    · cases hlimit
    · cases hway
    · exact applyWith_ne_mismatch (nextConversion_source hnext)
        (fun t _ => iterate_ne_mismatch s t) happ

/-- A trace that the engine returns can be replayed, has no more steps than the limit allows and is
returned under every higher limit too. No call fails because a conversion was applied to a state of
another kind. -/
theorem convertToAny_replays (s : Settings) (state : State) :
    (∀ goal others steps, s.convertToAny state (goal :: others) = .ok steps →
      s.Replays (goal :: others) state steps ∧ steps.length ≤ s.maxSteps ∧
      ∀ n, s.maxSteps ≤ n →
        Settings.convertToAny ⟨n, s.rule⟩ state (goal :: others) = .ok steps) ∧
    ∀ targets expected found,
      s.convertToAny state targets ≠ .error (.stateMismatch expected found) := by
  refine ⟨fun goal others steps h => ?_, fun _ _ _ => convertToAny_ne_mismatch s state _⟩
  obtain ⟨hruns, hlength⟩ := runs_of_driveTowards h
  exact ⟨hruns.replays, hlength, fun n hn => convertToAny_mono h hn⟩

theorem convertToAny_replays_workshop :
    ∃ first second, Settings.convertToAny ⟨7, .bland⟩ (.basicFeasible .workshop)
        [.leaving, .optimal] = .ok [first, second] ∧
      Settings.apply ⟨7, .bland⟩ .pickEntering (.basicFeasible .workshop) = .ok first ∧
      Settings.apply ⟨7, .bland⟩ .findLeaving first.result = .ok second ∧
      second.kind = .leaving ∧
      Settings.convertToAny ⟨50, .bland⟩ (.basicFeasible .workshop) [.leaving, .optimal] =
        .ok [first, second] := by
  have hrun : (Settings.convertToAny ⟨7, .bland⟩ (.basicFeasible .workshop)
      [.leaving, .optimal]).map (·.map fun step => (step.name, step.kind)) =
        .ok [(Conversion.pickEntering.name, .entering),
          (Conversion.findLeaving.name, .leaving)] := by decide +kernel
  obtain ⟨steps, h, hsteps⟩ := map_eq_ok.mp hrun
  obtain ⟨first, later, rfl, hfirst, hlater⟩ := List.map_eq_cons_iff.mp hsteps
  obtain ⟨second, later, rfl, hsecond, hlater⟩ := List.map_eq_cons_iff.mp hlater
  obtain rfl := List.map_eq_nil_iff.mp hlater
  obtain ⟨hreplays, -, hmore⟩ := (convertToAny_replays ⟨7, .bland⟩ _).1 _ _ _ h
  obtain ⟨c₁, hname₁, -, happ₁⟩ := hreplays.made (i := 0) rfl rfl
  obtain ⟨c₂, hname₂, -, happ₂⟩ := hreplays.made (i := 1) rfl rfl
  obtain rfl := (hname₁ .pickEntering (by decide)).mp (Prod.mk.inj hfirst).1.symm
  obtain rfl := (hname₂ .findLeaving (by decide)).mp (Prod.mk.inj hsecond).1.symm
  exact ⟨first, second, h, happ₁, happ₂, (Prod.mk.inj hsecond).2, hmore 50 (by decide)⟩

end Settings

end ExactSimplex
