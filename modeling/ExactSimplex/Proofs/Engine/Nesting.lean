import ExactSimplex.Proofs.Engine.Limit

/-! Runs and iterations call each other: a run applies conversions, and the conversion that makes an
iteration starts a run of its own. Nothing in that definition bounds how deep the calls go, so here
it is a relation between a call and what it returns, with every application of a conversion on
record. Each call is related to one record and one result, the result of the engine: the calls end
after one level, since the way to a pivoted tableau asks for no iteration. -/

namespace ExactSimplex

/-- An application of a conversion, with the applications that it made in turn. -/
structure Call where
  conversion : Conversion
  inner : List Call

/-- Only an iteration made applications in turn, no more than three and within the limit, and these
are no iterations and made none. -/
structure Call.Shallow (limit : Nat) (call : Call) : Prop where
  length_le : call.inner.length ≤ min limit 3
  iterates : call.inner ≠ [] → call.conversion = .iterate
  flat : ∀ deeper ∈ call.inner, deeper.conversion ≠ .iterate ∧ deeper.inner = []

/-- The step of an iteration, from the steps of the run inside it. -/
def concludeIteration (steps : List Step) : Except ChainError Step :=
  (iterationResult (finalState? steps)).map (iterationStep steps)

namespace Settings

mutual

/-- A run with so many steps left makes these calls and returns this result. -/
inductive Loops (s : Settings) : StateKind → List StateKind → Nat → State → List Call →
    Except ChainError (List Step) → Prop
  | stop {goal targets budget state} : stopsAt targets state.kind = true →
      Loops s goal targets budget state [] (.ok [])
  | full {goal targets state} : stopsAt targets state.kind = false →
      Loops s goal targets 0 state [] (.error (.iterationLimitExceeded s.maxSteps))
  | lost {goal targets budget state e} : stopsAt targets state.kind = false →
      nextConversion state.kind goal = .error e →
      Loops s goal targets (budget + 1) state [] (.error e)
  | fails {goal targets budget state c inner e} : stopsAt targets state.kind = false →
      nextConversion state.kind goal = .ok c → Applies s c state inner (.error e) →
      Loops s goal targets (budget + 1) state [⟨c, inner⟩] (.error e)
  | goes {goal targets budget state c inner step calls result} :
      stopsAt targets state.kind = false → nextConversion state.kind goal = .ok c →
      Applies s c state inner (.ok step) → Loops s goal targets budget step.result calls result →
      Loops s goal targets (budget + 1) state (⟨c, inner⟩ :: calls) (result.map (step :: ·))

/-- A conversion applied to a state makes these calls and returns this result. -/
inductive Applies (s : Settings) : Conversion → State → List Call → Except ChainError Step → Prop
  | plain {c state} : (c = .iterate → state.kind ≠ .basicFeasible) →
      Applies s c state [] (s.innerApply c state)
  | iterate {t calls result} :
      Loops s .pivoted [.pivoted, .optimal, .unbounded] s.maxSteps (.basicFeasible t) calls result →
      Applies s .iterate (.basicFeasible t) calls (result.bind concludeIteration)

end

/-- A call with these targets makes these calls and returns this result. -/
def Returns (s : Settings) (state : State) : List StateKind → List Call →
    Except ChainError (List Step) → Prop
  | [], calls, result => calls = [] ∧ result = .ok []
  | goal :: others, calls, result => s.Loops goal (goal :: others) s.maxSteps state calls result

end Settings

/-- The relation holds of this pair and of no other. -/
def Exactly {α β : Type} (R : α → β → Prop) (a : α) (b : β) : Prop :=
  ∀ a' b', R a' b' ↔ a' = a ∧ b' = b

theorem Exactly.intro {α β : Type} {R : α → β → Prop} {a : α} {b : β} (h : R a b)
    (honly : ∀ {a' b'}, R a' b' → a' = a ∧ b' = b) : Exactly R a b :=
  fun _ _ => ⟨honly, fun heq => heq.1 ▸ heq.2 ▸ h⟩

theorem Exactly.holds {α β : Type} {R : α → β → Prop} {a : α} {b : β} (h : Exactly R a b) : R a b :=
  (h a b).mpr ⟨rfl, rfl⟩

variable {s : Settings} {goal : StateKind} {targets : List StateKind} {c : Conversion}
  {state : State} {t : Tableau} {step : Step} {steps : List Step} {inner calls : List Call}
  {result : Except ChainError (List Step)} {e : ChainError} {budget : Nat}

namespace Settings

/-! ## One round of a run -/

theorem loops_stop (hstop : stopsAt targets state.kind = true) :
    Exactly (s.Loops goal targets budget state) [] (.ok []) := by
  refine .intro (.stop hstop) fun h => ?_
  cases h with
  | stop => exact ⟨rfl, rfl⟩
  | full hgo => cases hgo.symm.trans hstop
  | lost hgo => cases hgo.symm.trans hstop
  | fails hgo => cases hgo.symm.trans hstop
  | goes hgo => cases hgo.symm.trans hstop

theorem loops_full (hgo : stopsAt targets state.kind = false) :
    Exactly (s.Loops goal targets 0 state) [] (.error (.iterationLimitExceeded s.maxSteps)) := by
  refine .intro (.full hgo) fun h => ?_
  cases h with
  | stop hstop => cases hgo.symm.trans hstop
  | full => exact ⟨rfl, rfl⟩

theorem loops_lost (hgo : stopsAt targets state.kind = false)
    (hnext : nextConversion state.kind goal = .error e) :
    Exactly (s.Loops goal targets (budget + 1) state) [] (.error e) := by
  refine .intro (.lost hgo hnext) fun h => ?_
  cases h with
  | stop hstop => cases hgo.symm.trans hstop
  | lost _ hnext' =>
    obtain rfl := Except.error.inj (hnext.symm.trans hnext')
    exact ⟨rfl, rfl⟩
  | fails _ hnext' => cases hnext.symm.trans hnext'
  | goes _ hnext' => cases hnext.symm.trans hnext'

theorem loops_fails (hgo : stopsAt targets state.kind = false)
    (hnext : nextConversion state.kind goal = .ok c)
    (happlies : Exactly (s.Applies c state) inner (.error e)) :
    Exactly (s.Loops goal targets (budget + 1) state) [⟨c, inner⟩] (.error e) := by
  refine .intro (.fails hgo hnext happlies.holds) fun h => ?_
  cases h with
  | stop hstop => cases hgo.symm.trans hstop
  | lost _ hnext' => cases hnext.symm.trans hnext'
  | fails _ hnext' h =>
    obtain rfl := Except.ok.inj (hnext.symm.trans hnext')
    obtain ⟨rfl, herror⟩ := (happlies _ _).mp h
    exact ⟨rfl, by rw [Except.error.inj herror]⟩
  | goes _ hnext' h =>
    obtain rfl := Except.ok.inj (hnext.symm.trans hnext')
    cases ((happlies _ _).mp h).2

theorem loops_goes (hgo : stopsAt targets state.kind = false)
    (hnext : nextConversion state.kind goal = .ok c)
    (happlies : Exactly (s.Applies c state) inner (.ok step))
    (hlater : Exactly (s.Loops goal targets budget step.result) calls result) :
    Exactly (s.Loops goal targets (budget + 1) state) (⟨c, inner⟩ :: calls)
      (result.map (step :: ·)) := by
  refine .intro (.goes hgo hnext happlies.holds hlater.holds) fun h => ?_
  cases h with
  | stop hstop => cases hgo.symm.trans hstop
  | lost _ hnext' => cases hnext.symm.trans hnext'
  | fails _ hnext' h =>
    obtain rfl := Except.ok.inj (hnext.symm.trans hnext')
    cases ((happlies _ _).mp h).2
  | goes _ hnext' h hrest =>
    obtain rfl := Except.ok.inj (hnext.symm.trans hnext')
    obtain ⟨rfl, hstep⟩ := (happlies _ _).mp h
    obtain rfl := Except.ok.inj hstep
    obtain ⟨rfl, rfl⟩ := (hlater _ _).mp hrest
    exact ⟨rfl, rfl⟩

/-! ## Whole runs -/

/-- A run makes one record of calls and returns what the engine returns, if that is so of the
conversions that it asks for. With every step the rank falls, and it bounds the calls. -/
theorem loops_exactly (P : Call → Prop) (rank : Nat → StateKind → Nat)
    (happlies : ∀ c state, nextConversion state.kind goal = .ok c →
      ∃ inner, Exactly (s.Applies c state) inner (s.apply c state) ∧ P ⟨c, inner⟩)
    (hfalls : ∀ budget kind c landing, nextConversion kind goal = .ok c → landing ∈ c.landings →
      rank budget landing < rank (budget + 1) kind)
    (targets : List StateKind) (budget : Nat) (state : State) :
    ∃ calls, Exactly (s.Loops goal targets budget state) calls
        (driveTowards s.apply s.maxSteps goal targets budget state) ∧
      calls.length ≤ rank budget state.kind ∧ ∀ call ∈ calls, P call := by
  induction budget generalizing state with
  | zero =>
    refine ⟨[], ?_, Nat.zero_le _, by simp⟩
    cases hgo : stopsAt targets state.kind with
    | true => exact driveTowards_stop hgo ▸ loops_stop hgo
    | false =>
      rw [driveTowards_eq, if_neg (by simp [hgo])]
      exact loops_full hgo
  | succ budget ih =>
    cases hgo : stopsAt targets state.kind with
    | true => exact ⟨[], driveTowards_stop hgo ▸ loops_stop hgo, Nat.zero_le _, by simp⟩
    | false =>
      cases hnext : nextConversion state.kind goal with
      | error e =>
        rw [driveTowards_eq, if_neg (by simp [hgo]), hnext]
        exact ⟨[], loops_lost hgo hnext, Nat.zero_le _, by simp⟩
      | ok c =>
        obtain ⟨inner, hinner, hP⟩ := happlies c state hnext
        rw [driveTowards_succ hgo hnext]
        cases happ : s.apply c state with
        | error e =>
          have hpositive := hfalls budget _ c _ hnext (List.mem_of_head? c.landings_head?)
          rw [happ] at hinner
          exact ⟨_, loops_fails hgo hnext hinner, by simp; omega, by simpa using hP⟩
        | ok step =>
          have hless := hfalls budget _ c _ hnext (apply_madeBy happ).2.landing
          obtain ⟨calls, hcalls, hlength, hall⟩ := ih step.result
          rw [happ] at hinner
          refine ⟨_, loops_goes hgo hnext hinner hcalls, ?_, ?_⟩
          · simp only [List.length_cons]
            exact Nat.lt_of_le_of_lt hlength hless
          · simpa using ⟨hP, hall⟩

/-- A conversion that is no iteration makes no calls. -/
theorem applies_of_ne (hc : c ≠ .iterate) :
    Exactly (s.Applies c state) [] (s.apply c state) := by
  rw [apply_eq_innerApply hc]
  refine .intro (.plain fun h => absurd h hc) fun h => ?_
  cases h with
  | plain => exact ⟨rfl, rfl⟩
  | iterate => exact absurd rfl hc

/-- The run inside an iteration returns what the engine returns, with three calls at most, none of
them for an iteration. -/
theorem loops_pivoted (s : Settings) (t : Tableau) :
    ∃ calls, Exactly
        (s.Loops .pivoted [.pivoted, .optimal, .unbounded] s.maxSteps (.basicFeasible t)) calls
        (s.convertToAny (.basicFeasible t) [.pivoted, .optimal, .unbounded]) ∧
      calls.length ≤ min s.maxSteps 3 ∧
      ∀ call ∈ calls, call.conversion ≠ .iterate ∧ call.inner = [] :=
  loops_exactly (fun call => call.conversion ≠ .iterate ∧ call.inner = [])
    (fun budget kind => min budget kind.untilPivoted)
    (fun c state hnext =>
      have hc := (nextConversion_pivoted_spec hnext).1
      ⟨[], applies_of_ne hc, hc, rfl⟩)
    (fun budget kind c landing hnext hlanding => by
      have := ((nextConversion_pivoted_spec hnext).2 landing hlanding).2
      omega)
    _ _ _

/-- An iteration calls for the run inside it, and what is made of that is what the engine makes. -/
theorem applies_iterate
    (hcalls : Exactly
      (s.Loops .pivoted [.pivoted, .optimal, .unbounded] s.maxSteps (.basicFeasible t)) calls
      (s.convertToAny (.basicFeasible t) [.pivoted, .optimal, .unbounded])) :
    Exactly (s.Applies .iterate (.basicFeasible t)) calls
      (s.apply .iterate (.basicFeasible t)) := by
  have hiterate : s.apply .iterate (.basicFeasible t) =
      (s.convertToAny (.basicFeasible t) [.pivoted, .optimal, .unbounded]).bind
        concludeIteration := by
    rw [show s.apply .iterate (.basicFeasible t) = s.iterate t from rfl, iterate_eq]
    rfl
  rw [hiterate]
  refine .intro (.iterate hcalls.holds) fun h => ?_
  cases h with
  | plain hkind => exact absurd rfl (hkind rfl)
  | iterate hloops =>
    obtain ⟨rfl, rfl⟩ := (hcalls _ _).mp hloops
    exact ⟨rfl, rfl⟩

/-- A conversion makes one record of calls, which is no deeper than its own, and returns what the
engine makes of it. -/
theorem applies_exactly (s : Settings) (c : Conversion) (state : State) :
    ∃ inner, Exactly (s.Applies c state) inner (s.apply c state) ∧
      Call.Shallow s.maxSteps ⟨c, inner⟩ := by
  by_cases hc : c = .iterate
  · subst hc
    by_cases hkind : state.kind = .basicFeasible
    · obtain ⟨t, rfl⟩ := State.kind_eq_basicFeasible hkind
      obtain ⟨calls, hcalls, hlength, hflat⟩ := loops_pivoted s t
      exact ⟨calls, applies_iterate hcalls, hlength, fun _ => rfl, hflat⟩
    · refine ⟨[], ?_, Nat.zero_le _, fun h => absurd rfl h, by simp⟩
      have hsame : s.apply .iterate state = s.innerApply .iterate state := by
        cases state <;> first | exact absurd rfl hkind | rfl
      rw [hsame]
      refine .intro (.plain fun _ => hkind) fun h => ?_
      cases h with
      | plain => exact ⟨rfl, rfl⟩
      | iterate => exact absurd rfl hkind
  · exact ⟨[], applies_of_ne hc, Nat.zero_le _, fun h => absurd rfl h, by simp⟩

/-! ## Calls -/

theorem returns_exactly (s : Settings) (state : State) (targets : List StateKind) :
    ∃ calls, Exactly (s.Returns state targets) calls (s.convertToAny state targets) ∧
      calls.length ≤ s.maxSteps ∧ ∀ call ∈ calls, call.Shallow s.maxSteps := by
  cases targets with
  | nil => exact ⟨[], fun _ _ => Iff.rfl, Nat.zero_le _, by simp⟩
  | cons goal others =>
    exact loops_exactly (Call.Shallow s.maxSteps) (fun budget _ => budget)
      (fun c state _ => applies_exactly s c state) (fun _ _ _ _ _ _ => Nat.lt_succ_self _) _ _ _

/-- Only iterations have finer steps, and these are no iterations and have none. -/
theorem substeps_flat (h : s.convertToAny state targets = .ok steps) (hmem : step ∈ steps) :
    (step.substeps ≠ [] → step.name = Conversion.iterate.name) ∧
      ∀ sub ∈ step.substeps, sub.name ≠ Conversion.iterate.name ∧ sub.substeps = [] := by
  cases targets with
  | nil =>
    obtain rfl : [] = steps := Except.ok.inj h
    cases hmem
  | cons goal others =>
    obtain ⟨c, before, -, happ⟩ := (runs_of_driveTowards h).1.exists_applied hmem
    by_cases hc : c = .iterate
    · subst hc
      obtain ⟨t, rfl⟩ := State.kind_eq_basicFeasible (apply_madeBy happ).1.symm
      refine ⟨fun _ => (apply_madeBy happ).2.name, fun sub hsub => ?_⟩
      obtain ⟨d, inside, hnext, happ'⟩ := (iterate_eq_ok happ).1.exists_applied hsub
      have hd := (nextConversion_pivoted_spec hnext).1
      refine ⟨fun hname => hd (Conversion.name_injective ?_), substeps_eq_nil happ' hd⟩
      rw [← (apply_madeBy happ').2.name, hname]
    · rw [substeps_eq_nil happ hc]
      exact ⟨fun hne => absurd rfl hne, by simp⟩

/-- Every call returns, with the result of the engine, after as many applications of conversions at
most as the limit allows, each of which makes no more than three in turn. The call that an iteration
makes applies three conversions at most and never an iteration, and it ends where the iteration can
go on. So in a trace only iterations have finer steps, and these have none. -/
theorem convertToAny_returns (s : Settings) (state : State) (targets : List StateKind) :
    (∃ calls, Exactly (s.Returns state targets) calls (s.convertToAny state targets) ∧
      calls.length ≤ s.maxSteps ∧ ∀ call ∈ calls, call.Shallow s.maxSteps) ∧
    (∀ t calls result,
      s.Returns (.basicFeasible t) [.pivoted, .optimal, .unbounded] calls result →
      calls.length ≤ 3 ∧ (∀ call ∈ calls, call.conversion ≠ .iterate ∧ call.inner = []) ∧
      ∀ steps, result = .ok steps → ∃ final, finalState? steps = some final ∧
        final.kind ∈ [StateKind.pivoted, .optimal, .unbounded]) ∧
    ∀ steps, s.convertToAny state targets = .ok steps → ∀ step ∈ steps,
      (step.substeps ≠ [] → step.name = Conversion.iterate.name) ∧
      ∀ sub ∈ step.substeps, sub.name ≠ Conversion.iterate.name ∧ sub.substeps = [] := by
  refine ⟨returns_exactly s state targets, ?inside, fun steps h step => substeps_flat h⟩
  case inside =>
    intro t calls result hreturns
    obtain ⟨calls, hcalls, hlength, hflat⟩ := loops_pivoted s t
    obtain ⟨rfl, rfl⟩ := (hcalls _ _).mp hreturns
    refine ⟨hlength.trans (Nat.min_le_right _ _), hflat, fun steps h => ?_⟩
    obtain ⟨final, hinside⟩ := (runs_of_driveTowards h).1.exists_inside
    exact ⟨final, hinside.finalState?_eq, hinside.kind_mem⟩

theorem convertToAny_returns_workshop :
    ∃ steps calls, Settings.convertToAny ⟨100, .dantzig⟩ (.basicFeasible .workshop) [.optimal] =
        .ok steps ∧
      Settings.Returns ⟨100, .dantzig⟩ (.basicFeasible .workshop) [.optimal] calls (.ok steps) ∧
      steps.map (fun step => step.substeps.length) = [3, 1] ∧
      (∀ step ∈ steps, step.name = Conversion.iterate.name ∧
        ∀ sub ∈ step.substeps, sub.substeps = []) ∧
      ∃ steps' calls', Settings.Returns ⟨100, .dantzig⟩ (.basicFeasible .workshop)
          [.pivoted, .optimal, .unbounded] calls' (.ok steps') ∧
        calls'.length ≤ 3 ∧ (finalState? steps').map State.kind = some .pivoted := by
  have hrun : (Settings.convertToAny ⟨100, .dantzig⟩ (.basicFeasible .workshop) [.optimal]).map
      (·.map fun step => step.substeps.length) = .ok [3, 1] := by decide +kernel
  have hinner : (Settings.convertToAny ⟨100, .dantzig⟩ (.basicFeasible .workshop)
      [.pivoted, .optimal, .unbounded]).map (fun steps => (finalState? steps).map State.kind) =
        .ok (some .pivoted) := by decide +kernel
  obtain ⟨steps, h, hlengths⟩ := map_eq_ok.mp hrun
  obtain ⟨steps', h', hfinal⟩ := map_eq_ok.mp hinner
  obtain ⟨⟨calls, hcalls, -⟩, -, htrace⟩ :=
    convertToAny_returns ⟨100, .dantzig⟩ (.basicFeasible .workshop) [.optimal]
  obtain ⟨⟨calls', hcalls', -⟩, hinside, -⟩ := convertToAny_returns ⟨100, .dantzig⟩
    (.basicFeasible .workshop) [.pivoted, .optimal, .unbounded]
  rw [h] at hcalls
  rw [h'] at hcalls'
  refine ⟨steps, calls, h, hcalls.holds, hlengths, fun step hmem => ?_,
    steps', calls', hcalls'.holds, (hinside _ _ _ hcalls'.holds).1, hfinal⟩
  obtain ⟨hname, hflat⟩ := htrace steps h step hmem
  have hlength : step.substeps.length ∈ [3, 1] := hlengths ▸ List.mem_map_of_mem hmem
  refine ⟨hname fun hnone => ?_, fun sub hsub => (hflat sub hsub).2⟩
  simp [hnone] at hlength

end Settings

end ExactSimplex
