import ExactSimplex.Proofs.Engine.Drive
import ExactSimplex.Proofs.Pivoting.Bound
import ExactSimplex.Proofs.Pivoting.Exchange

/-! What an iteration comes to on a canonical tableau: its finer steps never fail there, so
with room for three steps it finds that the tableau is optimal, that nothing limits the
entering column, or the next tableau. With less room it does the same or fails. -/

namespace ExactSimplex

/-- What one iteration under a rule makes of a tableau. -/
inductive Tableau.Advances (rule : PivotRule) (t : Tableau) : State → Prop
  | optimal : t.isOptimal = true → Advances rule t (.optimal t)
  | unbounded {q : Nat} : t.Enters rule q →
      (∀ i, 0 < i → i < t.rows.length → t.entry i q ≤ 0) →
      Advances rule t (.unbounded ⟨t, t.columnName q⟩)
  | exchange {q r : Nat} : t.Enters rule q → t.Leaves rule q r →
      Advances rule t (.basicFeasible (t.exchange r q))

variable {t : Tableau} {rule : PivotRule} {q r : Nat}

/-! ## The finer steps -/

theorem Tableau.pickEnteringStep_spec (rule : PivotRule) (ht : t.Rectangular) :
    (t.isOptimal = true ∧ (t.pickEnteringStep rule).result = .optimal t) ∨
    ∃ q, t.Enters rule q ∧ (t.pickEnteringStep rule).result = .entering ⟨t, t.columnName q⟩ := by
  unfold pickEnteringStep
  cases h : t.entering? rule with
  | none => exact .inl ⟨entering?_eq_none.mp h, rfl⟩
  | some best =>
    obtain ⟨q, he, hname, -⟩ := entering?_spec ht h
    exact .inr ⟨q, he, by rw [← hname]; rfl⟩

theorem Leaving.pivotStep_spec {l : Leaving} (ht : l.tableau.Canonical)
    (hq : q < l.tableau.rhsColumn) (hname : l.entering = l.tableau.columnName q)
    (hl : l.tableau.Leaves rule q l.row) :
    l.pivotStep.map Step.result =
      .ok (.pivoted (l.tableau.pivotBy l.row q (l.tableau.entry l.row q)⁻¹)) := by
  have hcol : l.tableau.column? l.entering = some q :=
    hname ▸ Tableau.column?_columnName ht.distinct hq
  have hcell := Tableau.cell?_eq_entry ht.rectangular hl.lt (Tableau.lt_columns_length hq)
  unfold pivotStep
  rw [pivot_eq_ok hcol hcell hl.entry_ne]
  rfl

/-! ## The iteration -/

namespace Settings

variable {s : Settings}

/-- With room for three steps the run inside an iteration ends where the iteration does. -/
theorem drive_iteration (s : Settings) (ht : t.Canonical) (n : Nat) :
    ∃ steps final,
      drive s.innerApply (n + 3) (.basicFeasible t) [.pivoted, .optimal, .unbounded] = .ok steps ∧
      iterationResult (finalState? steps) = .ok final ∧ t.Advances s.rule final := by
  have hpick : nextConversion (State.basicFeasible t).kind .pivoted = .ok .pickEntering :=
    show nextConversion .basicFeasible .pivoted = _ by decide +kernel
  have hfind : ∀ e, nextConversion (State.entering e).kind .pivoted = .ok .findLeaving :=
    fun _ => show nextConversion .entering .pivoted = _ by decide +kernel
  have hpivot : ∀ l, nextConversion (State.leaving l).kind .pivoted = .ok .pivot :=
    fun _ => show nextConversion .leaving .pivoted = _ by decide +kernel
  simp only [drive]
  rw [driveTowards_succ rfl hpick]
  simp only [innerApply, applyWith, Except.bind]
  rcases t.pickEnteringStep_spec s.rule ht.rectangular with ⟨hopt, hres⟩ | ⟨q, he, hres⟩
  · rw [hres, driveTowards_stop rfl]
    exact ⟨_, _, rfl, by simp [finalState?, hres, iterationResult], .optimal hopt⟩
  rw [hres, driveTowards_succ rfl (hfind _)]
  rcases Entering.findLeavingStep_spec ⟨t, t.columnName q⟩ s.rule ht.based
    (Tableau.column?_columnName ht.distinct he.lt) with ⟨hall, hsecond⟩ | ⟨r, hl, hsecond⟩
  · obtain ⟨second, hsecond, hres2⟩ := map_eq_ok.mp hsecond
    simp only [applyWith, hsecond, mapError_ok, Except.bind]
    rw [hres2, driveTowards_stop rfl]
    exact ⟨_, _, rfl, by simp [finalState?, hres2, iterationResult], .unbounded he hall⟩
  obtain ⟨second, hsecond, hres2⟩ := map_eq_ok.mp hsecond
  simp only [applyWith, hsecond, mapError_ok, Except.bind]
  rw [hres2, driveTowards_succ rfl (hpivot _)]
  obtain ⟨third, hthird, hres3⟩ := map_eq_ok.mp (Leaving.pivotStep_spec (l :=
    ⟨t, t.columnName q, t.columnName (t.basicCol r), r, t.ratioList q⟩) ht he.lt rfl hl)
  simp only [applyWith, hthird, mapError_ok, Except.bind]
  rw [hres3, driveTowards_stop rfl]
  exact ⟨_, _, rfl, by simp [finalState?, hres3, iterationResult]; rfl, .exchange he hl⟩

theorem iterate_of_drive {steps : List Step} {final : State}
    (hrun : drive s.innerApply s.maxSteps (.basicFeasible t)
      [.pivoted, .optimal, .unbounded] = .ok steps)
    (hfinal : iterationResult (finalState? steps) = .ok final) :
    s.iterate t = .ok (iterationStep steps final) := by
  simp only [iterate, iterateWith, hrun, bind, Except.bind]
  rw [show iterationResult (steps.getLast?.map Step.result) = .ok final from hfinal]

theorem iterate_spec (ht : t.Canonical) (h3 : 3 ≤ s.maxSteps) :
    ∃ step, s.iterate t = .ok step ∧ t.Advances s.rule step.result := by
  obtain ⟨n, hn⟩ := Nat.exists_eq_add_of_le' h3
  obtain ⟨steps, final, hrun, hfinal, hadv⟩ := drive_iteration s ht n
  exact ⟨_, iterate_of_drive (hn ▸ hrun) hfinal, hadv⟩

/-- An iteration fails for want of room or not at all. -/
theorem iterate_eq_ok_or_limit (s : Settings) (ht : t.Canonical) :
    (∃ step, s.iterate t = .ok step ∧ t.Advances s.rule step.result) ∨
      s.iterate t = .error (.iterationLimitExceeded s.maxSteps) := by
  obtain ⟨steps, final, hrun, hfinal, hadv⟩ := drive_iteration s ht s.maxSteps
  rcases driveTowards_of_less s.maxSteps hrun (Nat.le_add_right s.maxSteps 3) with hsame | hroom
  · exact .inl ⟨_, iterate_of_drive hsame hfinal, hadv⟩
  · refine .inr ?_
    simp only [iterate, iterateWith, drive, hroom, bind, Except.bind]

/-- More room changes nothing for an iteration that succeeds. -/
theorem iterate_mono {n : Nat} {step : Step} (h : s.iterate t = .ok step)
    (hn : s.maxSteps ≤ n) : Settings.iterate ⟨n, s.rule⟩ t = .ok step := by
  simp only [iterate, iterateWith, drive] at h ⊢
  obtain ⟨steps, hrun, h⟩ := bind_eq_ok.mp h
  rw [show Settings.innerApply ⟨n, s.rule⟩ = s.innerApply from rfl, driveTowards_mono hrun hn]
  exact h

theorem advances_of_iterate {step : Step} (ht : t.Canonical) (h : s.iterate t = .ok step) :
    t.Advances s.rule step.result := by
  rcases iterate_eq_ok_or_limit s ht with ⟨step', hstep, hadv⟩ | hroom
  · obtain rfl := Except.ok.inj (h.symm.trans hstep)
    exact hadv
  · rw [h] at hroom
    cases hroom

end Settings

end ExactSimplex
