import ExactSimplex.Proofs.Engine.Limit

/-! Stopping on the way to the solution and going on later. Towards most kinds the engine goes the
way to the solution, and the run from where it stopped is what remains of that way. Towards the
states inside an iteration it takes finer steps: those inside the first iteration of the direct run.
The two legs take them in its place and meet the direct run where that iteration ends. -/

namespace ExactSimplex

/-- The kinds of states inside an iteration. -/
def StateKind.midway : List StateKind := [entering, leaving, pivoted]

/-- The kinds of states in which a run that is to stop inside an iteration stops. -/
def StateKind.begun : List StateKind := midway ++ [unbounded, solution]

/-- The conversions up to the first basic feasible tableau. -/
def Conversion.opening : List Conversion := [standardize, layOut, acceptBasis]

variable {s : Settings} {p : Program} {k goal : StateKind} {targets : List StateKind}
  {state last : State} {direct first whole : List Step} {step : Step} {t : Tableau}

/-! ## Ways that agree -/

/-- Towards a kind that is not inside an iteration the engine goes the way to the solution. -/
theorem sameWay_solution (hk : k ∉ StateKind.midway) :
    SameWay (fun _ => True) k [k] .solution [.solution] := by
  have htable : ∀ k ∈ StateKind.all, k ∉ StateKind.midway →
      SameWay (fun _ => True) k [k] .solution [.solution] := by decide +kernel
  exact htable k k.mem_all hk

/-- Towards a kind inside an iteration the engine goes the way to a pivoted tableau. -/
theorem sameWay_pivoted (hk : k ∈ StateKind.midway) :
    SameWay (fun kind => k.untilPivoted ≤ kind.untilPivoted ∨ kind = .optimal ∨ kind = .unbounded)
      k [k] .pivoted [.pivoted, .optimal, .unbounded] := by
  revert k
  decide +kernel

/-- Once an iteration has begun, the way to a pivoted tableau is the way to the solution. -/
theorem sameWay_begun :
    SameWay (· ∈ StateKind.begun) .pivoted [.pivoted, .optimal, .unbounded]
      .solution [.solution] := by
  decide +kernel

/-- A run into an iteration stops once the iteration has begun. -/
theorem mem_begun_of_stopsAt {kind : StateKind} (hk : k ∈ StateKind.midway)
    (hstop : stopsAt [k] kind = true) : kind ∈ StateKind.begun := by
  have htable : ∀ k ∈ StateKind.midway, ∀ kind ∈ StateKind.all,
      stopsAt [k] kind = true → kind ∈ StateKind.begun := by decide
  exact htable k hk kind kind.mem_all hstop

/-! ## Up to the first iteration -/

/-- Two runs from one state make the same step where both plans ask for the same conversion. -/
theorem Runs.eq_cons_both {goal' : StateKind} {targets' : List StateKind} {other : List Step}
    {c : Conversion} (h : Runs s.apply goal targets state whole)
    (h' : Runs s.apply goal' targets' state other) (hkind : state.kind = c.source)
    (hsame : (stopsAt targets c.source = false ∧ nextConversion c.source goal = .ok c) ∧
      stopsAt targets' c.source = false ∧ nextConversion c.source goal' = .ok c) :
    ∃ step later later', whole = step :: later ∧ other = step :: later' ∧ step.MadeBy c ∧
      Runs s.apply goal targets step.result later ∧
      Runs s.apply goal' targets' step.result later' := by
  rw [← hkind] at hsame
  obtain ⟨⟨hgo, hnext⟩, hgo', hnext'⟩ := hsame
  obtain ⟨step, later, rfl, happ, hlater⟩ := h.eq_cons hgo hnext
  obtain ⟨step', later', rfl, happ', hlater'⟩ := h'.eq_cons hgo' hnext'
  obtain rfl := Except.ok.inj (happ.symm.trans happ')
  exact ⟨step, later, later', rfl, rfl, (Settings.apply_madeBy happ).2, hlater, hlater'⟩

/-- A run to the solution and one into an iteration begin with the same way to the first basic
feasible tableau. -/
theorem exists_opening (hk : k ∈ StateKind.midway)
    (hdirect : Runs s.apply .solution [.solution] (.program p) direct)
    (hfirst : Runs s.apply k [k] (.program p) first) :
    ∃ opening t direct' first', direct = opening ++ direct' ∧ first = opening ++ first' ∧
      opening.map Step.name = Conversion.opening.map Conversion.name ∧
      finalState? opening = some (.basicFeasible t) ∧
      Runs s.apply .solution [.solution] (.basicFeasible t) direct' ∧
      Runs s.apply k [k] (.basicFeasible t) first' := by
  have htable : ∀ k ∈ StateKind.midway, ∀ c ∈ Conversion.opening,
      (stopsAt [.solution] c.source = false ∧ nextConversion c.source .solution = .ok c) ∧
      stopsAt [k] c.source = false ∧ nextConversion c.source k = .ok c := by
    decide +kernel
  have hsame := htable k hk
  obtain ⟨first₁, d₁, f₁, rfl, rfl, hmade₁, hd₁, hf₁⟩ :=
    hdirect.eq_cons_both hfirst rfl (hsame .standardize (by decide))
  obtain ⟨first₂, d₂, f₂, rfl, rfl, hmade₂, hd₂, hf₂⟩ :=
    hd₁.eq_cons_both hf₁ (hmade₁.kind_eq rfl) (hsame .layOut (by decide))
  obtain ⟨first₃, d₃, f₃, rfl, rfl, hmade₃, hd₃, hf₃⟩ :=
    hd₂.eq_cons_both hf₂ (hmade₂.kind_eq rfl) (hsame .acceptBasis (by decide))
  obtain ⟨t, hresult⟩ := State.kind_eq_basicFeasible (hmade₃.kind_eq rfl)
  rw [hresult] at hd₃ hf₃
  refine ⟨[first₁, first₂, first₃], t, d₃, f₃, rfl, rfl, ?_, congrArg some hresult, hd₃, hf₃⟩
  simp [Conversion.opening, hmade₁.name, hmade₂.name, hmade₃.name]

/-! ## The first iteration -/

/-- The steps of a direct run, and steps that are the same but for the first iteration, where there
are the steps inside it. They come together again at the tableau that the iteration leads to, or
where the iteration finds that nothing limits the entering variable. -/
inductive Flattened : List Step → List Step → Prop
  | pivoted {opening rest : List Step} {iteration : Step} {p : Pivoted} :
      opening.map Step.name = Conversion.opening.map Conversion.name →
      iteration.name = Conversion.iterate.name → iteration.result = .basicFeasible p.tableau →
      iteration.substeps.map Step.name =
        [Conversion.pickEntering, .findLeaving, .pivot].map Conversion.name →
      finalState? iteration.substeps = some (.pivoted p) →
      Flattened (opening ++ iteration :: rest)
        (opening ++ (iteration.substeps ++ p.resumeStep :: rest))
  | unbounded {opening : List Step} {iteration : Step} {e : Entering} :
      opening.map Step.name = Conversion.opening.map Conversion.name →
      iteration.name = Conversion.iterate.name → iteration.result = .unbounded e →
      iteration.substeps.map Step.name =
        [Conversion.pickEntering, .findLeaving].map Conversion.name →
      finalState? iteration.substeps = some (.unbounded e) →
      Flattened (opening ++ [iteration]) (opening ++ iteration.substeps)

/-- A run into an iteration takes steps that the iteration takes, and what the iteration takes after
them leads on towards the solution. -/
theorem exists_inner_split (hk : k ∈ StateKind.midway)
    (hfirst : Runs s.apply k [k] (.basicFeasible t) first) {inner : List Step}
    (hinner : Runs s.apply .pivoted [.pivoted, .optimal, .unbounded] (.basicFeasible t) inner)
    (hinside : Step.Inside inner last) :
    last.kind ≠ .optimal ∧ ∃ later, inner = first ++ later ∧
      ∀ rest, Runs s.apply .solution [.solution] last rest →
        Runs s.apply .solution [.solution] ((finalState? first).getD (.basicFeasible t))
          (later ++ rest) ∧
        (finalState? (later ++ rest)).getD ((finalState? first).getD (.basicFeasible t)) =
          (finalState? rest).getD last := by
  have hmade (c : Conversion) (state : State) (step : Step) (h : s.apply c state = .ok step) :
      step.MadeBy c := (Settings.apply_madeBy h).2
  have hstart : ∀ k ∈ StateKind.midway,
      k.untilPivoted ≤ StateKind.basicFeasible.untilPivoted := by decide
  obtain ⟨later, rfl, hlater⟩ := (sameWay_pivoted hk).split hmade hfirst hinner
    (.inl (hstart k hk))
  have hlast : (finalState? later).getD ((finalState? first).getD (.basicFeasible t)) = last := by
    rw [← getD_finalState?_append, hinside.finalState?_eq]
    rfl
  -- The state in which the first leg stopped is one from which both ways are the same, so what the
  -- iteration did next is the beginning of the second leg, and it did not find the tableau optimal.
  have hbegun := mem_begun_of_stopsAt hk hfirst.stopsAt_final
  have hend := sameWay_begun.final hmade hlater hbegun
  rw [hlast] at hend
  refine ⟨fun hoptimal => absurd (hoptimal ▸ hend) (by decide), later, rfl, fun rest hrest => ?_⟩
  rw [← hlast] at hrest
  refine ⟨sameWay_begun.append hmade hlater hrest hbegun, ?_⟩
  rw [getD_finalState?_append, hlast]

/-- From where a run into an iteration stopped, the solution can be reached, and the two legs are
the direct run with the steps inside its first iteration in the place of that. -/
theorem exists_flattened (hk : k ∈ StateKind.midway)
    (hdirect : Runs s.apply .solution [.solution] (.program p) direct)
    (hfirst : Runs s.apply k [k] (.program p) first) :
    ∃ second, Runs s.apply .solution [.solution] ((finalState? first).getD (.program p)) second ∧
      (finalState? second).getD ((finalState? first).getD (.program p)) =
        (finalState? direct).getD (.program p) ∧
      Flattened direct (first ++ second) := by
  obtain ⟨opening, t, direct, first, rfl, rfl, hopening, hfinal, hdirect, hfirst⟩ :=
    exists_opening hk hdirect hfirst
  obtain ⟨iteration, rest, rfl, happ, hrest⟩ :=
    hdirect.eq_cons rfl (nextConversion_solution .basicFeasible)
  have hname := (Settings.apply_madeBy happ).2.name
  obtain ⟨hinner, -, last, hinside, hresult⟩ := Settings.iterate_eq_ok happ
  obtain ⟨hoptimal, later, hsplit, hresumes⟩ := exists_inner_split hk hfirst hinner hinside
  have hopens (state : State) : (finalState? opening).getD state = .basicFeasible t := by
    rw [hfinal]
    rfl
  simp only [getD_finalState?_append, hopens, getD_finalState?_cons]
  have hlast := hinside.finalState?_eq
  -- The second leg ends the iteration and then does what the direct run does after it.
  generalize hsubsteps : iteration.substeps = inner at hinside hsplit
  cases hinside with
  | optimal => exact absurd rfl hoptimal
  | @unbounded _ _ e hpick hfind =>
    have hend : iteration.result = .unbounded e := (Except.ok.inj hresult).symm
    obtain rfl := hrest.eq_nil (by rw [hend]; rfl)
    obtain ⟨hsecond, hfinal'⟩ := hresumes [] (.stop rfl)
    refine ⟨_, hsecond, by rw [hfinal', hend], ?_⟩
    rw [List.append_nil, List.append_assoc, ← hsplit, ← hsubsteps]
    exact .unbounded hopening hname hend (by simp [hsubsteps, hpick.name, hfind.name]) hlast
  | @pivoted _ _ _ pivoted hpick hfind hpivot =>
    have hend : iteration.result = .basicFeasible pivoted.tableau := (Except.ok.inj hresult).symm
    rw [hend] at hrest
    obtain ⟨hsecond, hfinal'⟩ :=
      hresumes _ (.step rfl (nextConversion_solution .pivoted) rfl hrest)
    refine ⟨_, hsecond, by rw [hfinal', getD_finalState?_cons, hend]; rfl, ?_⟩
    rw [List.append_assoc, ← List.append_assoc first, ← hsplit, ← hsubsteps]
    exact .pivoted hopening hname hend
      (by simp [hsubsteps, hpick.name, hfind.name, hpivot.name]) hlast

namespace Settings

/-- Stopping at a kind on the way from a program to its solution and going on from there ends where
the direct run ends, under every limit that leaves room for the second leg and for an iteration. The
two legs are the direct run itself, or, where they stop inside an iteration, the direct run with the
steps inside its first iteration in the place of that. -/
theorem convertTo_resumes (rule : PivotRule) (p : Program) (k : StateKind) (m n : Nat)
    {direct first : List Step}
    (hdirect : Settings.convertTo ⟨m, rule⟩ (.program p) .solution = .ok direct)
    (hfirst : Settings.convertTo ⟨n, rule⟩ (.program p) k = .ok first) :
    ∃ final second, finalState? direct = some final ∧
      (∀ limit, 3 ≤ limit → second.length ≤ limit →
        Settings.convertTo ⟨limit, rule⟩ ((finalState? first).getD (.program p)) .solution =
          .ok second) ∧
      (finalState? second).getD ((finalState? first).getD (.program p)) = final ∧
      (k ∉ StateKind.midway → first ++ second = direct) ∧
      (k ∈ StateKind.midway → Flattened direct (first ++ second)) := by
  -- Both runs are made by the engine with the larger of the two limits.
  have hdirect := (runs_of_driveTowards (convertToAny_mono hdirect (Nat.le_max_left m n))).1
  have hfirst := (runs_of_driveTowards (convertToAny_mono hfirst (Nat.le_max_right m n))).1
  have hfinal : finalState? direct = some ((finalState? direct).getD (.program p)) := by
    obtain ⟨step, later, rfl, -⟩ := hdirect.eq_cons rfl (nextConversion_solution .program)
    rfl
  by_cases hk : k ∈ StateKind.midway
  · obtain ⟨second, hsecond, hend, hflattened⟩ := exists_flattened hk hdirect hfirst
    exact ⟨_, second, hfinal, fun _ => convertToAny_of_runs hsecond, hend,
      fun hnot => absurd hk hnot, fun _ => hflattened⟩
  · obtain ⟨second, rfl, hsecond⟩ := (sameWay_solution hk).split
      (fun _ _ _ h => (apply_madeBy h).2) hfirst hdirect trivial
    exact ⟨_, second, hfinal, fun _ => convertToAny_of_runs hsecond,
      (getD_finalState?_append _ _ _).symm, fun _ => rfl, fun h => absurd h hk⟩

/-- Stopped once the entering variable has been chosen, and at the first basic feasible tableau. -/
theorem convertTo_resumes_corner :
    ∃ direct first second first' second' limit,
      Settings.convertTo ⟨100, .dantzig⟩ (.program .corner) .solution = .ok direct ∧
      Settings.convertTo ⟨4, .dantzig⟩ (.program .corner) .entering = .ok first ∧
      first.map Step.kind = [.standardProgram, .unknownTableau, .basicFeasible, .entering] ∧
      Settings.convertTo ⟨limit, .dantzig⟩ ((finalState? first).getD (.program .corner))
        .solution = .ok second ∧
      (finalState? second).getD ((finalState? first).getD (.program .corner)) =
        (finalState? direct).getD (.program .corner) ∧
      Flattened direct (first ++ second) ∧
      Settings.convertTo ⟨3, .dantzig⟩ (.program .corner) .basicFeasible = .ok first' ∧
      first'.length = 3 ∧ first' ++ second' = direct := by
  have hrun : (Settings.convertTo ⟨100, .dantzig⟩ (.program .corner) .solution).map
      List.length = .ok 7 := by decide +kernel
  have hentering : (Settings.convertTo ⟨4, .dantzig⟩ (.program .corner) .entering).map
      (·.map Step.kind) = .ok [.standardProgram, .unknownTableau, .basicFeasible, .entering] := by
    decide +kernel
  have hfeasible : (Settings.convertTo ⟨3, .dantzig⟩ (.program .corner) .basicFeasible).map
      List.length = .ok 3 := by decide +kernel
  obtain ⟨direct, hdirect, -⟩ := map_eq_ok.mp hrun
  obtain ⟨first, hfirst, hkinds⟩ := map_eq_ok.mp hentering
  obtain ⟨first', hfirst', hlength⟩ := map_eq_ok.mp hfeasible
  obtain ⟨_, second, hfinal, hsecond, hend, -, hflattened⟩ :=
    convertTo_resumes .dantzig .corner .entering 100 4 hdirect hfirst
  obtain ⟨_, second', -, -, -, hsame, -⟩ :=
    convertTo_resumes .dantzig .corner .basicFeasible 100 3 hdirect hfirst'
  refine ⟨direct, first, second, first', second', max 3 second.length, hdirect, hfirst, hkinds,
    hsecond _ (Nat.le_max_left _ _) (Nat.le_max_right _ _), ?_, hflattened (by decide), hfirst',
    hlength, hsame (by decide)⟩
  rw [hend, hfinal]
  rfl

end Settings

end ExactSimplex
