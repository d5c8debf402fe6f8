import ExactSimplex.Explained.Pivoting
import ExactSimplex.Proofs.Except
import ExactSimplex.Proofs.Pivoting.Choice

/-! How far an entering variable can rise. The min-ratio test answers for every column that the
tableau has, also for that of the right-hand side, as long as each row below the objective's has
a basic variable; the right-hand sides may be negative. -/

namespace ExactSimplex

/-- The choice of a row that bounds the entering variable, which stands in column `q`. -/
structure Entering.BoundBy (e : Entering) (rule : PivotRule) (q : Nat) (l : Leaving) : Prop where
  tableau : l.tableau = e.tableau
  entering : l.entering = e.name
  /-- Its ratio is the least one, and the rule puts it before all tied rows. -/
  row : e.tableau.Leaves rule q l.row
  leaving : e.tableau.basicVariable? l.row = some l.leaving
  length : l.ratios.length = e.tableau.rows.length
  /-- What is recorded for each row: its ratio, where it is below row 0 and its entry positive. -/
  ratio : ∀ i, i < e.tableau.rows.length → l.ratios[i]? = some (
    if 0 < i ∧ 0 < e.tableau.entry i q then .finite (e.tableau.rhs i / e.tableau.entry i q)
    else .infinite)

variable {e : Entering} {q : Nat}

theorem Tableau.ratioTest_eq {t : Tableau} (ht : t.Rectangular) {name : String}
    (hq : t.column? name = some q) : t.ratioTest name = .ok (t.ratioList q) := by
  obtain ⟨hlt, -⟩ := List.idxOf?_eq_some_iff.mp hq
  simp only [ratioTest, hq, Option.bind_some, ratios?_eq ht hlt]

namespace Entering

theorem findLeavingStep_spec (e : Entering) (rule : PivotRule) (ht : e.tableau.Based)
    (hq : e.tableau.column? e.name = some q) :
    ((∀ i, 0 < i → i < e.tableau.rows.length → e.tableau.entry i q ≤ 0) ∧
      (e.findLeavingStep rule).map Step.result = .ok (.unbounded e)) ∨
    ∃ r, e.tableau.Leaves rule q r ∧
      (e.findLeavingStep rule).map Step.result = .ok (.leaving
        ⟨e.tableau, e.name, e.tableau.columnName (e.tableau.basicCol r), r,
          e.tableau.ratioList q⟩) := by
  unfold findLeavingStep
  rw [Tableau.ratioTest_eq ht.rectangular hq]
  rcases Tableau.chooseLeaving_spec rule q ht with ⟨hchoice, hall⟩ | ⟨r, hl, hchoice⟩
  · refine .inl ⟨hall, ?_⟩
    simp only [bind, Except.bind, hchoice]
    rfl
  · refine .inr ⟨r, hl, ?_⟩
    simp only [bind, Except.bind, hchoice]
    rfl

theorem boundBy_of_leaves {rule : PivotRule} {r : Nat} (ht : e.tableau.Based)
    (hl : e.tableau.Leaves rule q r) :
    e.BoundBy rule q ⟨e.tableau, e.name, e.tableau.columnName (e.tableau.basicCol r), r,
      e.tableau.ratioList q⟩ where
  tableau := rfl
  entering := rfl
  row := hl
  leaving := ht.basicVariable?_eq hl.pos hl.lt
  length := by simp [Tableau.ratioList]
  ratio _ hi := Tableau.ratioList_getElem? hi

/-- The step that finds the leaving variable succeeds: nothing limits the entering variable
precisely if no row below the objective's has a positive entry, and else the row is chosen that
the rule puts first among those with the least ratio. -/
theorem findLeavingStep_binding (e : Entering) (rule : PivotRule) (ht : e.tableau.Rectangular)
    (hd : e.tableau.columns.Nodup)
    (hbasic : ∀ i, 0 < i → i < e.tableau.rows.length → (e.tableau.basicVariable? i).isSome = true)
    (hq : e.tableau.column? e.name = some q) :
    ∃ step, e.findLeavingStep rule = .ok step ∧
      (step.result = .unbounded e ↔
        ∀ i, 0 < i → i < e.tableau.rows.length → e.tableau.entry i q ≤ 0) ∧
      (step.result ≠ .unbounded e → ∃ l, step.result = .leaving l ∧ e.BoundBy rule q l) := by
  have hbased : e.tableau.Based := ⟨ht, hd.sublist (List.dropLast_sublist _), fun i h0 hi =>
    Tableau.exists_basicColumn_of_isSome (hbasic i h0 hi)⟩
  rcases e.findLeavingStep_spec rule hbased hq with ⟨hall, hspec⟩ | ⟨r, hl, hspec⟩
  · obtain ⟨step, hstep, hresult⟩ := map_eq_ok.mp hspec
    exact ⟨step, hstep, iff_of_true hresult hall, fun hne => absurd hresult hne⟩
  · obtain ⟨step, hstep, hresult⟩ := map_eq_ok.mp hspec
    refine ⟨step, hstep, ?_, fun _ => ⟨_, hresult, boundBy_of_leaves hbased hl⟩⟩
    rw [hresult]
    refine iff_of_false nofun fun hall => ?_
    exact absurd hl.entry_pos (not_lt.mpr (hall r hl.pos hl.lt))

end Entering

/-- Two rows tie with a negative ratio; the basic variable of the second comes first. -/
def Entering.tied : Entering where
  tableau := ⟨.max, ["z", "x1", "e1", "e2", "e3", "rhs"],
    [[1, -1, 0, 0, 0, 0], [0, 1, 0, 1, 0, -2], [0, 2, 1, 0, 0, -4], [0, -1, 0, 0, 1, 3]],
    ⟨.max, "z", .ofTerms [("x1", 1)]⟩⟩
  name := "x1"

theorem Entering.findLeavingStep_binding_tied :
    tied.tableau.Rectangular ∧ tied.tableau.columns.Nodup ∧
      (∀ i, 0 < i → i < tied.tableau.rows.length →
        (tied.tableau.basicVariable? i).isSome = true) ∧
      tied.tableau.column? tied.name = some 1 ∧
      ∀ rule, ∃ step, tied.findLeavingStep rule = .ok step ∧
        (step.result = .unbounded tied ↔
          ∀ i, 0 < i → i < tied.tableau.rows.length → tied.tableau.entry i 1 ≤ 0) ∧
        (step.result ≠ .unbounded tied →
          ∃ l, step.result = .leaving l ∧ tied.BoundBy rule 1 l) := by
  have ht : tied.tableau.Rectangular := by
    unfold Tableau.Rectangular
    decide
  have hd : tied.tableau.columns.Nodup := by decide
  have hall : ∀ i ∈ List.range 4, 0 < i → (tied.tableau.basicVariable? i).isSome = true := by
    decide +kernel
  have hbasic : ∀ i, 0 < i → i < tied.tableau.rows.length →
      (tied.tableau.basicVariable? i).isSome = true :=
    fun i h0 hi => hall i (List.mem_range.mpr hi) h0
  have hq : tied.tableau.column? tied.name = some 1 := by decide +kernel
  exact ⟨ht, hd, hbasic, hq, fun rule => tied.findLeavingStep_binding rule ht hd hbasic hq⟩

end ExactSimplex
