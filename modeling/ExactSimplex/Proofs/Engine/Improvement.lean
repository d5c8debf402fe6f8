import ExactSimplex.Proofs.Engine.Inside
import ExactSimplex.Proofs.Engine.Reached
import ExactSimplex.Proofs.Engine.Trail

/-! The objective along a run. An iteration that leads to another basic feasible tableau has made a
choice and a pivot inside it, its move. The move takes the right-hand side of row 0 by the least
ratio in the direction of the objective, so along a run that never goes back, and it stays the same
through pivots with the ratio zero only. -/

namespace ExactSimplex

/-- The choice that a pivot follows, and what the pivot comes to. -/
structure Move where
  choice : Leaving
  pivoted : Pivoted

/-- The move inside an iteration, if it came to a pivot. -/
def Step.move? (step : Step) : Option Move :=
  match step.substeps.map Step.result with
  | [.entering _, .leaving choice, .pivoted pivoted] => some ⟨choice, pivoted⟩
  | _ => none

/-- The moves of a run, in order. -/
def Trail.moves (run : Trail) : List Move := run.steps.filterMap Step.move?

theorem Trail.moves_cons (step : Step) (later : Trail) :
    (later.cons step).moves = step.move?.toList ++ later.moves := by
  rw [moves, steps_cons, List.filterMap_cons]
  cases step.move? <;> rfl

/-- A move takes the right-hand side of row 0 further in a direction, by minus the reduced cost of
the entering variable times the least ratio. -/
structure Move.Gains (m : Move) (d : Direction) (cost least before after : Rat) : Prop where
  cost_eq : m.choice.tableau.get? 0 m.choice.entering = some cost
  ratios_eq : m.choice.tableau.ratioTest m.choice.entering = .ok m.choice.ratios
  least_eq : Ratio.minimum m.choice.ratios = .finite least
  before_eq : m.choice.tableau.rhs? 0 = some before
  after_eq : m.pivoted.tableau.rhs? 0 = some after
  nonneg : 0 ≤ least
  change : after = before - cost * least
  not_worse : ¬ d.Better before after
  better : 0 < least → d.Better after before

theorem Move.Gains.rhs_eq {m : Move} {d : Direction} {cost least before after : Rat}
    (h : m.Gains d cost least before after) :
    m.choice.tableau.rhs 0 = before ∧ m.pivoted.tableau.rhs 0 = after :=
  ⟨congrArg (Option.getD · 0) h.before_eq, congrArg (Option.getD · 0) h.after_eq⟩

/-- Each of the tableaux is followed by what the next of the moves gains on it. -/
def GainsAlong (d : Direction) (ts : List Tableau) (ms : List Move) : Prop :=
  ∀ k t u, ts[k]? = some t → ts[k + 1]? = some u → ∃ m cost least before after,
    ms[k]? = some m ∧ m.choice.tableau = t ∧ m.pivoted.tableau = u ∧
      m.Gains d cost least before after

variable {s : Settings} {t u : Tableau} {step : Step} {rule : PivotRule} {d : Direction}
  {ts : List Tableau} {ms : List Move} {m : Move} {q r : Nat}

/-! ## One move -/

namespace Tableau

/-- The ratio of the leaving row is the least of all. -/
theorem Leaves.minimum_ratioList (hl : t.Leaves rule q r) :
    Ratio.minimum (t.ratioList q) = .finite (t.rhs r / t.entry r q) := by
  have hle := Ratio.minimum_le (mem_ratioList.mpr ⟨r, hl.lt, rfl⟩ : _ ∈ t.ratioList q)
  rw [rowRatio_eq_finite.mpr ⟨hl.pos, hl.entry_pos, rfl⟩] at hle
  cases hmin : Ratio.minimum (t.ratioList q) with
  | infinite => rw [hmin] at hle; cases hle
  | finite x =>
    rw [hmin, Ratio.le, decide_eq_true_eq] at hle
    have hmem : Ratio.minimum (t.ratioList q) ∈ t.ratioList q :=
      Ratio.minimum_mem (by simp [hmin])
    rw [hmin] at hmem
    obtain ⟨i, hi, hratio⟩ := mem_ratioList.mp hmem
    obtain ⟨h0, hpos, rfl⟩ := rowRatio_eq_finite.mp hratio
    rw [le_antisymm hle (hl.least i h0 hi hpos)]

theorem Leaves.ratio_nonneg (ht : t.Canonical) (hl : t.Leaves rule q r) :
    0 ≤ t.rhs r / t.entry r q :=
  div_nonneg (ht.rhs_nonneg hl.pos hl.lt) hl.entry_pos.le

/-- What the pivot on a canonical tableau gains. -/
theorem Canonical.gains (ht : t.Canonical) (he : t.Enters rule q)
    (hl : t.Leaves rule q m.choice.row) (htableau : m.choice.tableau = t)
    (hentering : m.choice.entering = t.columnName q) (hratios : m.choice.ratios = t.ratioList q)
    (hpivoted : m.pivoted.tableau = t.exchange m.choice.row q) :
    m.Gains t.direction (t.entry 0 q) (t.rhs m.choice.row / t.entry m.choice.row q) (t.rhs 0)
      ((t.exchange m.choice.row q).rhs 0) := by
  have hm : 0 < t.rows.length := Nat.zero_lt_of_lt hl.lt
  have hcolumns := lt_columns_length he.lt
  have hcolumn := column?_columnName ht.distinct he.lt
  have hworse := sign_mul_rhs_zero_le ht he hl
  refine ⟨?cost, ?ratios, ?least, ?before, ?after, hl.ratio_nonneg ht,
    rhs_zero_exchange ht he.lt hl, ?not_worse, ?better⟩
  case cost =>
    rw [htableau, hentering, get?, hcolumn, Option.bind_some,
      cell?_eq_entry ht.rectangular hm hcolumns]
  case ratios => rw [htableau, hentering, hratios, ratioTest_eq ht.rectangular hcolumn]
  case least => rw [hratios, hl.minimum_ratioList]
  case before => rw [htableau, rhs?_eq_rhs ht.rectangular hm (Nat.zero_lt_of_lt hcolumns)]
  case after =>
    rw [hpivoted, rhs?_eq_rhs (exchange_rectangular ht.rectangular) (by simpa using hm)
      (Nat.zero_lt_of_lt hcolumns)]
  case not_worse =>
    rw [Direction.better_iff, not_lt]
    exact hworse
  case better =>
    intro hpos
    rw [Direction.better_iff]
    refine lt_of_le_of_ne hworse fun heq => ?_
    rw [rhs_eq_zero_of_objective_eq ht he hl heq.symm, zero_div] at hpos
    exact lt_irrefl _ hpos

end Tableau

/-! ## The move of an iteration -/

/-- Steps other than iterations have nothing inside them. -/
theorem Settings.move?_eq_none {c : Conversion} {state : State} (h : s.apply c state = .ok step)
    (hc : c ≠ .iterate) : step.move? = none := by
  rw [Step.move?, Settings.substeps_eq_nil h hc, List.map_nil]

/-- The run inside an iteration that comes to a pivot has chosen its column and its row before. -/
theorem Runs.exists_leaves {p : Pivoted} {steps : List Step} (ht : t.Canonical)
    (h : Runs s.apply .pivoted [.pivoted, .optimal, .unbounded] (.basicFeasible t) steps)
    (hfinal : (finalState? steps).getD (.basicFeasible t) = .pivoted p) :
    ∃ q l, t.Enters s.rule q ∧ t.Leaves s.rule q l.row ∧ l.tableau = t ∧
      l.entering = t.columnName q ∧ l.ratios = t.ratioList q ∧
      p.tableau = t.exchange l.row q ∧
      steps.map Step.result = [.entering ⟨t, t.columnName q⟩, .leaving l, .pivoted p] := by
  obtain ⟨first, later, rfl, hfirst, h⟩ := h.eq_cons rfl (nextConversion_pivoted _)
  obtain rfl : t.pickEnteringStep s.rule = first := Except.ok.inj hfirst
  rw [getD_finalState?_cons] at hfinal
  rcases t.pickEnteringStep_spec s.rule ht.rectangular with ⟨-, hpicked⟩ | ⟨q, he, hpicked⟩ <;>
    rw [hpicked] at h hfinal
  case inl =>
    obtain rfl := h.eq_nil rfl
    cases hfinal
  obtain ⟨second, later, rfl, hsecond, h⟩ := h.eq_cons rfl (nextConversion_pivoted _)
  rw [getD_finalState?_cons] at hfinal
  rcases Entering.findLeavingStep_spec ⟨t, t.columnName q⟩ s.rule ht.based
    (Tableau.column?_columnName ht.distinct he.lt) with ⟨-, hfound⟩ | ⟨r, hl, hfound⟩ <;>
    rw [mapError_eq_ok.mp hsecond] at hfound <;>
    replace hfound := Except.ok.inj hfound <;>
    rw [hfound] at h hfinal
  case inl =>
    obtain rfl := h.eq_nil rfl
    cases hfinal
  obtain ⟨third, later, rfl, hthird, h⟩ := h.eq_cons rfl (nextConversion_pivoted _)
  rw [getD_finalState?_cons] at hfinal
  have hpivot := Leaving.pivotStep_spec
    (l := ⟨t, t.columnName q, t.columnName (t.basicCol r), r, t.ratioList q⟩) ht he.lt rfl hl
  rw [mapError_eq_ok.mp hthird] at hpivot
  replace hpivot := Except.ok.inj hpivot
  rw [hpivot] at h hfinal
  obtain rfl := h.eq_nil rfl
  obtain rfl := State.pivoted.inj hfinal
  exact ⟨q, _, he, hl, rfl, rfl, rfl, rfl, by simp [hpicked, hfound, hpivot]⟩

/-- An iteration from a canonical tableau to another has moved there. -/
theorem Settings.exists_gains_of_iterate (ht : t.Canonical) (h : s.iterate t = .ok step)
    (hresult : step.result = .basicFeasible u) :
    ∃ m cost least before after, step.move? = some m ∧ m.choice.tableau = t ∧
      m.pivoted.tableau = u ∧ m.Gains t.direction cost least before after := by
  obtain ⟨hruns, -, last, hinside, hlast⟩ := Settings.iterate_eq_ok h
  have hfinal := congrArg (Option.getD · (State.basicFeasible t)) hinside.finalState?_eq
  rcases iterationResult_eq_ok hlast with ⟨p, hp, hu⟩ | ⟨_, -, hu⟩ | ⟨_, -, hu⟩ <;>
    rw [hresult] at hu <;> cases hu
  obtain rfl := Option.some.inj hp
  obtain ⟨q, l, he, hl, htableau, hentering, hratios, hp, hresults⟩ :=
    hruns.exists_leaves ht hfinal
  exact ⟨⟨l, p⟩, _, _, _, _, by rw [Step.move?, hresults], htableau, rfl,
    ht.gains he hl htableau hentering hratios hp⟩

/-! ## Along a run -/

theorem Program.Becomes.canonical {p : Program} (h : p.Becomes rule (.basicFeasible t)) :
    t.Canonical ∧ t.direction = p.objective.direction := by
  cases h with
  | tableau hstd hbecomes =>
    obtain ⟨added, hform⟩ := Program.standardized_of_standardize hstd
    cases hbecomes with
    | basicFeasible hr =>
      refine ⟨hr.canonical, hr.direction.trans ?_⟩
      exact congrArg Objective.direction hform.objective

theorem GainsAlong.cons {cost least before after : Rat} (h : GainsAlong d (u :: ts) ms)
    (htableau : m.choice.tableau = t) (hpivoted : m.pivoted.tableau = u)
    (hm : m.Gains d cost least before after) : GainsAlong d (t :: u :: ts) (m :: ms) := by
  intro k t' u' ht' hu'
  cases k with
  | zero =>
    obtain rfl := Option.some.inj ht'
    obtain rfl := Option.some.inj hu'
    exact ⟨m, cost, least, before, after, rfl, htableau, hpivoted, hm⟩
  | succ k => exact h k t' u' ht' hu'

theorem gainsAlong_of_length_le (h : ts.length ≤ 1) : GainsAlong d ts ms := by
  intro k t u _ hu
  obtain ⟨hk, -⟩ := List.getElem?_eq_some_iff.mp hu
  omega

namespace Settings

/-- After an optimal tableau or an unbounded verdict no basic feasible tableau comes. -/
theorem tableaux_eq_nil (s : Settings) (limit budget : Nat) {state : State}
    (hstate : state.kind = .optimal ∨ state.kind = .unbounded) :
    (trailTowards s.apply limit .solution [.solution] budget state).tableaux = [] := by
  rcases trailTowards_cases s.apply limit .solution [.solution] budget state with
    hnone | ⟨left, c, step, -, hgo, hnext, happ, hcons⟩
  · exact Trail.tableaux_eq_nil hnone
  rcases hstate with hkind | hkind <;> rw [hkind] at hgo hnext
  · obtain rfl := Except.ok.inj hnext
    have hsolution : step.result.kind = .solution := (apply_madeBy happ).2.kind_eq rfl
    have hfeasible : step.result.feasible? = none := by
      cases hresult : step.result <;> rw [hresult] at hsolution <;> first | rfl | cases hsolution
    rw [hcons, Trail.tableaux_cons, hfeasible, trailTowards_stop (by rw [hsolution]; rfl)]
    rfl
  · cases hgo

/-- Whatever a run has made of a program, its basic feasible tableaux gain from one to the next. -/
theorem gainsAlong_trailTowards {p : Program} (hw : p.WellFormed) (limit budget : Nat)
    {state : State} (h : p.Becomes s.rule state) :
    GainsAlong p.objective.direction
      (state.feasible?.toList ++
        (trailTowards s.apply limit .solution [.solution] budget state).tableaux)
      (trailTowards s.apply limit .solution [.solution] budget state).moves := by
  induction budget using Nat.strong_induction_on generalizing state with
  | h budget ih =>
  rcases trailTowards_cases s.apply limit .solution [.solution] budget state with
    hnone | ⟨left, c, step, rfl, -, hnext, happ, hcons⟩
  · rw [Trail.tableaux_eq_nil hnone]
    exact gainsAlong_of_length_le (by cases state.feasible? <;> simp)
  have hlater := ih left (Nat.lt_succ_self left) (h.applied hw (applyWith_eq_ok happ))
  rw [hcons, Trail.tableaux_cons, Trail.moves_cons]
  by_cases hc : c = .iterate
  case neg =>
    have hstate : state.feasible? = none := by
      cases state <;> first | rfl | exact absurd (Except.ok.inj hnext).symm hc
    rw [move?_eq_none happ hc, hstate]
    exact hlater
  subst hc
  obtain ⟨t, rfl⟩ := State.kind_eq_basicFeasible (apply_madeBy happ).1.symm
  obtain ⟨ht, hdirection⟩ := h.canonical
  have hadvances := advances_of_iterate ht happ
  have hend := @tableaux_eq_nil s limit left step.result
  generalize hresult : step.result = result at hadvances hlater hend
  cases hadvances with
  | optimal =>
    rw [hend (.inl rfl)]
    exact gainsAlong_of_length_le (Nat.le_refl 1)
  | unbounded =>
    rw [hend (.inr rfl)]
    exact gainsAlong_of_length_le (Nat.le_refl 1)
  | exchange =>
    obtain ⟨m, cost, least, before, after, hmove, htableau, hpivoted, hgains⟩ :=
      exists_gains_of_iterate ht happ hresult
    rw [hmove]
    exact GainsAlong.cons hlater htableau hpivoted (hdirection ▸ hgains)

end Settings

namespace GainsAlong

theorem sign_mul_rhs_zero_le (h : GainsAlong d ts ms) {i j : Nat} (hij : i ≤ j)
    (ht : ts[i]? = some t) (hu : ts[j]? = some u) : d.sign * t.rhs 0 ≤ d.sign * u.rhs 0 := by
  induction j, hij using Nat.le_induction generalizing u with
  | base =>
    obtain rfl := Option.some.inj (ht.symm.trans hu)
    exact le_refl _
  | succ j _ ih =>
    obtain ⟨hj, -⟩ := List.getElem?_eq_some_iff.mp hu
    have hmiddle := List.getElem?_eq_getElem (Nat.lt_of_succ_lt hj)
    obtain ⟨m, cost, least, before, after, -, htableau, hpivoted, hgains⟩ := h j _ u hmiddle hu
    obtain ⟨hbefore, hafter⟩ := hgains.rhs_eq
    rw [htableau] at hbefore
    rw [hpivoted] at hafter
    have hstep := hgains.not_worse
    rw [Direction.better_iff, not_lt, ← hbefore, ← hafter] at hstep
    exact (ih hmiddle).trans hstep

/-- Between two places with the same tableau the objective stays, so all moves have the ratio
zero. -/
theorem minimum_eq_zero (h : GainsAlong d ts ms) {i j k : Nat} (hik : i ≤ k) (hkj : k < j)
    (hi : ts[i]? = some t) (hj : ts[j]? = some t) :
    ∃ m, ms[k]? = some m ∧ Ratio.minimum m.choice.ratios = .finite 0 := by
  obtain ⟨hlength, -⟩ := List.getElem?_eq_some_iff.mp hj
  have hk := List.getElem?_eq_getElem (show k < ts.length by omega)
  have hnext := List.getElem?_eq_getElem (show k + 1 < ts.length by omega)
  obtain ⟨m, cost, least, before, after, hm, htableau, hpivoted, hgains⟩ := h k _ _ hk hnext
  obtain ⟨hbefore, hafter⟩ := hgains.rhs_eq
  have hback := (h.sign_mul_rhs_zero_le hkj hnext hj).trans (h.sign_mul_rhs_zero_le hik hi hk)
  rw [← htableau, ← hpivoted, hbefore, hafter] at hback
  refine ⟨m, hm, ?_⟩
  rw [hgains.least_eq, le_antisymm (not_lt.mp fun hpos => ?_) hgains.nonneg]
  exact absurd hback (not_le.mpr (Direction.better_iff.mp (hgains.better hpos)))

end GainsAlong

/-- Along a run of a well-formed program to the solution, also along one that fails on the way, the
objective never gets worse: between two basic feasible tableaux in a row there is one move, which
changes the right-hand side of row 0 by minus the reduced cost times the least ratio and improves it
where that ratio is positive. So the moves between two equal tableaux all have the ratio zero. -/
theorem Settings.objective_never_worsens (s : Settings) (p : Program) (hw : p.WellFormed) :
    (s.trail (.program p) .solution).report = s.convertTo (.program p) .solution ∧
    (∀ (k : Nat) (t u : Tableau), (s.trail (.program p) .solution).tableaux[k]? = some t →
      (s.trail (.program p) .solution).tableaux[k + 1]? = some u →
        ∃ (m : Move) (cost least before after : Rat),
          (s.trail (.program p) .solution).moves[k]? = some m ∧
          m.choice.tableau = t ∧ m.pivoted.tableau = u ∧
          m.Gains p.objective.direction cost least before after) ∧
    ∀ (i j : Nat) (t : Tableau), (s.trail (.program p) .solution).tableaux[i]? = some t →
      (s.trail (.program p) .solution).tableaux[j]? = some t → ∀ k, i ≤ k → k < j →
        ∃ m : Move, (s.trail (.program p) .solution).moves[k]? = some m ∧
          Ratio.minimum m.choice.ratios = .finite 0 := by
  have h : GainsAlong p.objective.direction (s.trail (.program p) .solution).tableaux
      (s.trail (.program p) .solution).moves :=
    gainsAlong_trailTowards hw s.maxSteps s.maxSteps .program
  exact ⟨s.report_trail _ _, h, fun _ _ _ hi hj _ hik hkj => h.minimum_eq_zero hik hkj hi hj⟩

/-- A program on which Dantzig's rule goes in circles: its first tableau is the seventh too. -/
def Program.circling : Program where
  objective := ⟨.max, "z", .ofTerms [("x1", 3 / 4), ("x2", -20), ("x3", 1 / 2), ("x4", -6)]⟩
  constraints := [
    ⟨.ofTerms [("x1", 1 / 4), ("x2", -8), ("x3", -1), ("x4", 9)], .atMost, 0⟩,
    ⟨.ofTerms [("x1", 1 / 2), ("x2", -12), ("x3", -1 / 2), ("x4", 3)], .atMost, 0⟩,
    ⟨.ofTerms [("x3", 1)], .atMost, 1⟩]
  declarations := ⟨[("x1", .nonNegative), ("x2", .nonNegative), ("x3", .nonNegative),
    ("x4", .nonNegative)]⟩

/-- The six pivots of the circle all have the ratio zero, and the run uses up its steps. -/
theorem Settings.objective_never_worsens_circling :
    Program.circling.WellFormed ∧
      Settings.convertTo ⟨9, .dantzig⟩ (.program .circling) .solution =
        .error (.iterationLimitExceeded 9) ∧
      ∀ k < 6, ∃ m : Move,
        (Settings.trail ⟨9, .dantzig⟩ (.program .circling) .solution).moves[k]? = some m ∧
        Ratio.minimum m.choice.ratios = .finite 0 := by
  have hw : Program.circling.WellFormed := by decide +kernel
  obtain ⟨hreport, -, hzero⟩ := objective_never_worsens ⟨9, .dantzig⟩ .circling hw
  generalize hrun : Settings.trail ⟨9, .dantzig⟩ (.program .circling) .solution = run
    at hreport hzero
  have hfailure : run.failure? = some (.iterationLimitExceeded 9) := by
    rw [← hrun]
    decide +kernel
  have hfirst : (run.tableaux[0]?).isSome = true := by
    rw [← hrun]
    decide +kernel
  have hcircle : run.tableaux[6]? = run.tableaux[0]? := by
    rw [← hrun]
    decide +kernel
  obtain ⟨t, ht⟩ := Option.isSome_iff_exists.mp hfirst
  refine ⟨hw, ?_, fun k hk => hzero 0 6 t ht (hcircle.trans ht) k (Nat.zero_le k) hk⟩
  rw [← hreport, Trail.report, hfailure]

end ExactSimplex
