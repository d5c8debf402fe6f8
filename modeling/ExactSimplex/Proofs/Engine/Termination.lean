import ExactSimplex.Proofs.Engine.Reached
import ExactSimplex.Proofs.Pivoting.Bland

/-! Bland's rule never cycles. The iterations of a run are pivots with the rule's choices, so
no tableau comes up twice and the run comes to an optimal tableau or an unbounded verdict.
How many steps that takes depends on the tableau alone, so enough room suffices. -/

namespace ExactSimplex

variable {start t u : Tableau} {s : Settings} {step : Step} {steps : List Step} {final : State}

/-! ## Iterations as pivots -/

theorem Settings.exchanges_of_iterate (ht : t.Canonical) (h : s.iterate t = .ok step)
    (hres : step.result = .basicFeasible u) : t.Exchanges s.rule u := by
  have hadv := Settings.advances_of_iterate ht h
  rw [hres] at hadv
  cases hadv with
  | exchange he hl => exact ⟨_, _, he, hl, rfl⟩

/-- The tableaux of a sequence of iterations. -/
def Settings.Iterates (s : Settings) (ts : Nat → Tableau) (n : Nat) : Prop :=
  ∀ k, k < n → ∃ step, s.iterate (ts k) = .ok step ∧ step.result = .basicFeasible (ts (k + 1))

theorem Settings.Iterates.exchanges {ts : Nat → Tableau} {n : Nat} (h : s.Iterates ts n)
    (ht : (ts 0).Canonical) : ∀ k, k < n → (ts k).Exchanges s.rule (ts (k + 1)) := by
  have hreach : ∀ k, k ≤ n → (ts 0).Reaches (ts k) := by
    intro k
    induction k with
    | zero => exact fun _ => .refl ht
    | succ k ih =>
      intro hk
      have hr := ih (by omega)
      obtain ⟨step, hstep, hres⟩ := h k (by omega)
      exact hr.exchanges (Settings.exchanges_of_iterate hr.canonical hstep hres)
  intro k hk
  obtain ⟨step, hstep, hres⟩ := h k hk
  exact Settings.exchanges_of_iterate (hreach k (by omega)).canonical hstep hres

/-! ## The run of the iterations -/

/-- Runs under Bland's rule make these steps and go on from the last state, whatever they
plan iterations for and however much room they have. -/
def State.RunsThrough (state : State) (steps : List Step) (final : State) : Prop :=
  ∀ s : Settings, s.rule = .bland → 3 ≤ s.maxSteps → ∀ goal targets,
    nextConversion .basicFeasible goal = .ok .iterate → stopsAt targets .basicFeasible = false →
    ∀ limit budget, driveTowards s.apply limit goal targets (budget + steps.length) state =
      (driveTowards s.apply limit goal targets budget final).map (steps ++ ·)

namespace State.RunsThrough

theorem refl (state : State) : state.RunsThrough [] state := by
  intro s _ _ goal targets _ _ limit budget
  cases driveTowards s.apply limit goal targets budget state <;> rfl

theorem cons (h : Settings.iterate ⟨3, .bland⟩ t = .ok step)
    (hlater : step.result.RunsThrough steps final) :
    (State.basicFeasible t).RunsThrough (step :: steps) final := by
  intro s hrule h3 goal targets hnext hgo limit budget
  have hstep : s.apply .iterate (.basicFeasible t) = .ok step := by
    rw [show s = ⟨s.maxSteps, .bland⟩ by rw [← hrule]]
    exact Settings.iterate_mono h h3
  have hnext' : nextConversion (State.basicFeasible t).kind goal = .ok .iterate := hnext
  rw [List.length_cons, ← Nat.add_assoc, driveTowards_succ hgo hnext', hstep]
  simp only [Except.bind, hlater s hrule h3 goal targets hnext hgo limit budget]
  cases driveTowards s.apply limit goal targets budget final <;> rfl

end State.RunsThrough

/-- Under Bland's rule every canonical tableau runs through to an optimal one or an unbounded
verdict: a run without end would be an endless sequence of pivots. -/
theorem Tableau.Reaches.exists_runsThrough (hr : start.Reaches t) :
    ∃ steps final, (State.basicFeasible t).RunsThrough steps final ∧
      finalState? steps = some final ∧ (final.kind = .optimal ∨ final.kind = .unbounded) := by
  suffices h : ∀ u : {t // start.Reaches t}, ∃ steps final,
      (State.basicFeasible u.1).RunsThrough steps final ∧ finalState? steps = some final ∧
        (final.kind = .optimal ∨ final.kind = .unbounded) from h ⟨t, hr⟩
  intro u
  induction u using (exchanges_wellFounded start).induction with
  | h u ih =>
    obtain ⟨step, hstep, hadv⟩ :=
      Settings.iterate_spec (s := ⟨3, .bland⟩) u.2.canonical (le_refl 3)
    have hlast : (State.basicFeasible u.1).RunsThrough [step] step.result :=
      .cons hstep (.refl _)
    generalize hres : step.result = state at hadv hlast
    cases hadv with
    | optimal hopt => exact ⟨[step], _, hlast, by simp [finalState?, hres], .inl rfl⟩
    | unbounded he hall => exact ⟨[step], _, hlast, by simp [finalState?, hres], .inr rfl⟩
    | exchange he hl =>
      rename_i q r
      obtain ⟨steps, final, hrun, hfinal, hkind⟩ :=
        ih ⟨_, u.2.exchange he.lt hl⟩ ⟨q, r, he, hl, rfl⟩
      exact ⟨step :: steps, final, .cons hstep (hres ▸ hrun), finalState?_cons hfinal, hkind⟩

/-! ## Runs from a tableau that was laid out -/

/-- With room for the basis and one step more, a run makes the steps of the iterations. -/
theorem State.RunsThrough.convertTo (h : (State.basicFeasible t).RunsThrough steps final)
    (hf : t.IsBasicFeasible) (hrule : s.rule = .bland) (hroom : steps.length + 3 ≤ s.maxSteps)
    {goal : StateKind} (hgoal : goal = .optimal ∨ goal = .solution) :
    ∃ first left, s.convertTo (.unknownTableau t) goal =
      (driveTowards s.apply s.maxSteps goal [goal] (left + 1) final).map (first :: steps ++ ·) := by
  obtain ⟨first, hfirst, hres⟩ := Tableau.acceptBasisStep_isOk hf
  obtain ⟨left, hleft⟩ := Nat.exists_eq_add_of_le' (show steps.length + 2 ≤ s.maxSteps by omega)
  have haccept : nextConversion (State.unknownTableau t).kind goal = .ok .acceptBasis := by
    rcases hgoal with rfl | rfl
    · exact show nextConversion .unknownTableau .optimal = _ by decide +kernel
    · exact nextConversion_solution _
  have hnext : nextConversion .basicFeasible goal = .ok .iterate := by
    rcases hgoal with rfl | rfl <;> decide +kernel
  have hgo : ∀ kind, kind = .unknownTableau ∨ kind = .basicFeasible →
      stopsAt [goal] kind = false := by
    rcases hgoal with rfl | rfl <;> rintro _ (rfl | rfl) <;> rfl
  have hlater := h s hrule (by omega) goal [goal] hnext (hgo _ (.inr rfl)) s.maxSteps (left + 1)
  have hstep : s.apply .acceptBasis (.unknownTableau t) = .ok first := mapError_eq_ok.mpr hfirst
  refine ⟨first, left, ?_⟩
  rw [Settings.convertTo, Settings.convertToAny, drive]
  rw [show driveTowards s.apply s.maxSteps goal [goal] s.maxSteps (.unknownTableau t) =
      driveTowards s.apply s.maxSteps goal [goal] (left + 1 + steps.length + 1)
        (.unknownTableau t) by rw [hleft]; congr 1; omega]
  rw [driveTowards_succ (hgo _ (.inl rfl)) haccept, hstep]
  simp only [Except.bind, hres, hlater]
  cases driveTowards s.apply s.maxSteps goal [goal] (left + 1) final <;> rfl

/-- From an optimal tableau or an unbounded verdict one step more is enough. -/
theorem driveTowards_solution_ne_limit (s : Settings) (limit left : Nat)
    (hkind : final.kind = .optimal ∨ final.kind = .unbounded) (l : Nat) :
    driveTowards s.apply limit .solution [.solution] (left + 1) final ≠
      .error (.iterationLimitExceeded l) := by
  cases final <;> simp only [State.kind, reduceCtorEq, or_self, or_true, true_or] at hkind
  case optimal u =>
    rw [driveTowards_succ rfl (nextConversion_solution (State.optimal u).kind)]
    rw [show s.apply .readSolution (.optimal u) = u.readSolutionStep.mapError .simplex from rfl]
    cases hstep : u.readSolutionStep with
    | error e => simp [Except.bind]
    | ok step =>
      obtain ⟨sol, -, rfl⟩ := map_eq_ok.mp hstep
      simp only [mapError_ok, Except.bind]
      rw [driveTowards_stop rfl]
      exact nofun
  case unbounded e =>
    rw [driveTowards_stop rfl]
    exact nofun

/-- Under Bland's rule no tableau comes up twice in the iterations from a tableau whose basis
is accepted, and with enough room for steps they come to an end. -/
theorem Tableau.bland_terminates (t : Tableau) (ht : t.Regular) (hf : t.IsBasicFeasible) :
    (∀ (s : Settings) (ts : Nat → Tableau) (n : Nat), s.rule = .bland → ts 0 = t →
      s.Iterates ts n → ∀ i j, i < j → j ≤ n → ts i ≠ ts j) ∧
    ∃ room, ∀ s : Settings, s.rule = .bland → room ≤ s.maxSteps →
      (∀ limit, s.convertTo (.unknownTableau t) .solution ≠
        .error (.iterationLimitExceeded limit)) ∧
      ∃ steps final, s.convertTo (.unknownTableau t) .optimal = .ok steps ∧
        finalState? steps = some final ∧ (final.kind = .optimal ∨ final.kind = .unbounded) := by
  have hc := ht.canonical hf
  constructor
  · rintro s ts n hrule rfl hits i j hij hj
    exact exchanges_injective hc (fun k hk => hrule ▸ hits.exchanges hc k hk) hij hj
  · obtain ⟨steps, final, hrun, hfinal, hkind⟩ := (Reaches.refl hc).exists_runsThrough
    refine ⟨steps.length + 3, fun s hrule hroom => ⟨fun limit => ?_, ?_⟩⟩
    · obtain ⟨first, left, heq⟩ := hrun.convertTo hf hrule hroom (.inr rfl)
      have hne := driveTowards_solution_ne_limit s s.maxSteps left hkind limit
      rw [heq]
      cases h : driveTowards s.apply s.maxSteps .solution [.solution] (left + 1) final with
      | error e => exact fun he => hne (by rw [h]; exact he)
      | ok later => exact nofun
    · obtain ⟨first, left, heq⟩ := hrun.convertTo hf hrule hroom (.inl rfl)
      have hstop : stopsAt [.optimal] final.kind = true := by
        rcases hkind with h | h <;> rw [h] <;> rfl
      rw [driveTowards_stop hstop] at heq
      refine ⟨first :: steps ++ [], final, heq, ?_, hkind⟩
      rw [List.append_nil]
      exact finalState?_cons hfinal

/-- A tableau on which Dantzig's rule goes in circles: six pivots lead back to it. -/
def Tableau.circling : Tableau where
  direction := .max
  columns := ["z", "x1", "x2", "x3", "x4", "e1", "e2", "e3", "rhs"]
  rows := [
    [1, -3 / 4, 20, -1 / 2, 6, 0, 0, 0, 0],
    [0, 1 / 4, -8, -1, 9, 1, 0, 0, 0],
    [0, 1 / 2, -12, -1 / 2, 3, 0, 1, 0, 0],
    [0, 0, 0, 1, 0, 0, 0, 1, 1]]
  objective := ⟨.max, "z", .ofTerms [("x1", 3 / 4), ("x2", -20), ("x3", 1 / 2), ("x4", -6)]⟩

/-- The tableau that the first iteration under Bland's rule leads to. -/
def Tableau.circlingNext : Tableau :=
  { circling with rows := [
    [1, 0, -4, -7 / 2, 33, 3, 0, 0, 0],
    [0, 1, -32, -4, 36, 4, 0, 0, 0],
    [0, 0, 4, 3 / 2, -15, -2, 1, 0, 0],
    [0, 0, 0, 1, 0, 0, 0, 1, 1]] }

theorem Tableau.bland_terminates_circling :
    circling.Regular ∧ circling.IsBasicFeasible ∧
      (∃ ts : Nat → Tableau, ts 0 = circling ∧ Settings.Iterates ⟨3, .bland⟩ ts 1 ∧
        ts 0 ≠ ts 1) ∧
      ∃ room, ∀ s : Settings, s.rule = .bland → room ≤ s.maxSteps →
        (∀ limit, s.convertTo (.unknownTableau circling) .solution ≠
          .error (.iterationLimitExceeded limit)) ∧
        ∃ steps final, s.convertTo (.unknownTableau circling) .optimal = .ok steps ∧
          finalState? steps = some final ∧
          (final.kind = .optimal ∨ final.kind = .unbounded) := by
  have hregular : circling.Regular := ⟨by decide, by decide, by decide +kernel⟩
  have hfeasible : circling.IsBasicFeasible := by decide +kernel
  obtain ⟨hnever, hroom⟩ := bland_terminates circling hregular hfeasible
  have hfirst : (Settings.iterate ⟨3, .bland⟩ circling).map Step.result =
      .ok (.basicFeasible circlingNext) := by decide +kernel
  let ts : Nat → Tableau := fun k => if k = 0 then circling else circlingNext
  have hits : Settings.Iterates ⟨3, .bland⟩ ts 1 := by
    intro k hk
    obtain rfl : k = 0 := by omega
    exact map_eq_ok.mp hfirst
  exact ⟨hregular, hfeasible, ⟨ts, rfl, hits, hnever _ ts 1 rfl rfl hits 0 1 (by omega) (by omega)⟩,
    hroom⟩

end ExactSimplex
