import ExactSimplex.Explained.Pivoting
import ExactSimplex.Proofs.Guarded.Tableau
import ExactSimplex.Proofs.Pivoting.Choice

/-! The steps of the simplex method on a tableau, made with guarded operations. The list of basic
variables has an item for every row, and so has the list of ratios if there is one; a pivot looks
for its cell before it takes its row, and every divisor is compared with zero before it divides. -/

namespace ExactSimplex.Guarded

variable {ε : Type}

/-! ## The starting basis -/

/-- What keeps a row with the given basic variable from being part of a feasible basis. -/
def rowFailure? (t : Tableau) (basic : Option String) (row : Nat) : Option SimplexError :=
  match basic with
  | none => some (.noBasicVariable row)
  | some _ =>
    match t.rhs? row with
    | some b => if b < 0 then some (.infeasibleStart row b) else none
    | none => none

def acceptBasisStep (t : Tableau) : Guarded SimplexError Step := do
  let basics ← basicVariables t
  match (basics.zipIdx.drop 1).findSome? fun (basic, row) => rowFailure? t basic row with
  | some e => .error (.failure e)
  | none => .ok (t.acceptedStep ((basics.drop 1).filterMap id))

theorem drop_range (n : Nat) : (List.range n).drop 1 = List.range' 1 (n - 1) := by
  simp [List.range_eq_range']

theorem drop_basicVariables (t : Tableau) : (t.basicVariables.drop 1).filterMap id =
    t.constraintRows.filterMap t.basicVariable? := by
  rw [Tableau.basicVariables, ← List.map_drop, drop_range, List.filterMap_map]
  rfl

theorem startFailure?_eq (t : Tableau) : t.startFailure? =
    (t.basicVariables.zipIdx.drop 1).findSome? fun (basic, row) => rowFailure? t basic row := by
  have hrows : t.basicVariables.zipIdx =
      (List.range t.rows.length).map fun row => (t.basicVariable? row, row) := by
    refine List.ext_getElem (by simp [Tableau.basicVariables]) fun i _ _ => ?_
    simp [Tableau.basicVariables]
  rw [hrows, ← List.map_drop, drop_range, List.findSome?_map]
  rfl

theorem acceptBasisStep_eq (t : Tableau) : acceptBasisStep t = ofExcept t.acceptBasisStep := by
  unfold acceptBasisStep Tableau.acceptBasisStep
  rw [basicVariables_eq, ok_bind, ← startFailure?_eq, drop_basicVariables]
  cases t.startFailure? <;> rfl

/-! ## The ratio test -/

/-- The reciprocal, unless it is that of zero. -/
def reciprocal (q : Rat) : Guarded ArithmeticError Rat :=
  if q = 0 then .error (.failure .divisionByZero) else invert q

theorem reciprocal_eq (q : Rat) : reciprocal q = ofExcept (Rational.reciprocal q) := by
  unfold reciprocal Rational.reciprocal
  split
  · rfl
  · exact invert_eq_ok ‹_›

/-- The ratio of a row, by the reciprocal of its entry. -/
def rowRatio (row : Nat) (entry rhs : Rat) : Guarded SimplexError Ratio :=
  if 0 < row ∧ 0 < entry then
    (reported .arithmetic (reciprocal entry)).map fun factor => .finite (rhs * factor)
  else .ok .infinite

def ratioTest (t : Tableau) (entering : String) : Guarded SimplexError (List Ratio) := do
  let column ← orFailure (t.column? entering) (.missingColumn entering)
  t.rows.zipIdx.mapM fun (cells, i) =>
    match cells[column]?, cells[t.rhsColumn]? with
    | some entry, some rhs => rowRatio i entry rhs
    | _, _ => .error (.failure (.missingColumn entering))

/-- No reciprocal of zero is asked for: the entry of a row that binds is positive. -/
theorem rowRatio_eq (row : Nat) (entry rhs : Rat) :
    rowRatio row entry rhs = .ok (Tableau.rowRatio row entry rhs) := by
  unfold rowRatio Tableau.rowRatio
  split
  · rename_i h
    have hentry : entry ≠ 0 := ne_of_gt h.2
    rw [reciprocal_eq, Rational.reciprocal_ok hentry, div_eq_mul_inv]
    rfl
  · rfl

theorem ofExcept_ratioTest (t : Tableau) (entering : String) :
    ofExcept (t.ratioTest entering) =
      orFailure ((t.column? entering).bind t.ratios?) (.missingColumn entering) := by
  unfold Tableau.ratioTest
  cases (t.column? entering).bind t.ratios? <;> rfl

theorem ratioTest_eq (t : Tableau) (entering : String) :
    ratioTest t entering = ofExcept (t.ratioTest entering) := by
  rw [ofExcept_ratioTest, ratioTest]
  cases t.column? entering with
  | none => rfl
  | some column =>
    refine mapM_orFailure fun (cells, i) => ?_
    simp only [rowRatio_eq]
    cases cells[column]? <;> cases cells[t.rhsColumn]? <;> rfl

/-! ## The leaving variable -/

/-- The line of each row, with the basic variable that it has in the list. -/
def ratioLines (e : Entering) (basics : List (Option String)) (ratios : List Ratio) :
    Guarded ε (List String) :=
  ratios.zipIdx.mapM fun (ratio, i) =>
    (item basics i).map fun basic => e.explainRatio i basic ratio

/-- The first of the keyed rows whose rank comes first. -/
def firstKeyed? : List (Option Nat × Nat) → Option Nat
  | [] => none
  | k :: ks => some (ks.foldl (fun best k => if Tableau.rankBefore k.1 best.1 then k else best) k).2

def pickRow? (t : Tableau) (rule : PivotRule) (basics : List (Option String)) (rows : List Nat) :
    Guarded ε (Option Nat) :=
  match rule with
  | .dantzig => .ok rows.head?
  | .bland => do
    let keyed ← rows.mapM fun i => (item basics i).map fun basic => (basic.bind t.column?, i)
    .ok (firstKeyed? keyed)

def chooseLeaving (t : Tableau) (rule : PivotRule) (basics : List (Option String))
    (ratios : List Ratio) : Guarded SimplexError LeavingChoice :=
  let least := Ratio.minimum ratios
  if least = .infinite then .ok .unbounded
  else do
    let picked ← pickRow? t rule basics (Tableau.tiedRows ratios least)
    let row ← orFailure picked (.noBasicVariable 0)
    let basic ← item basics row
    let name ← orFailure basic (.noBasicVariable row)
    .ok (.leaves row name least)

def findLeavingStep (e : Entering) (rule : PivotRule) : Guarded SimplexError Step := do
  let ratios ← ratioTest e.tableau e.name
  let basics ← basicVariables e.tableau
  let lines ← ratioLines e basics ratios
  let choice ← chooseLeaving e.tableau rule basics ratios
  .ok (e.leavingStep ratios lines choice)

theorem ratioLines_eq {e : Entering} {ratios : List Ratio}
    (h : ratios.length = e.tableau.rows.length) :
    (ratioLines e e.tableau.basicVariables ratios : Guarded ε _) =
      .ok (ratios.mapIdx fun i ratio => e.explainRatio i (e.tableau.basicVariable? i) ratio) := by
  rw [List.mapIdx_eq_zipIdx_map]
  refine mapM_eq_pure fun (ratio, i) hmem => ?_
  have hi : i < e.tableau.rows.length := h ▸ (List.mem_zipIdx' hmem).1
  simp only [item_basicVariables hi]
  rfl

/-- Comparing keyed rows is comparing rows by their ranks. -/
theorem foldl_keyed (rank : Nat → Option Nat) (i : Nat) (rows : List Nat) :
    (rows.map fun j => (rank j, j)).foldl
        (fun best k => if Tableau.rankBefore k.1 best.1 then k else best) (rank i, i) =
      (fun j => (rank j, j)) (rows.foldl
        (fun best j => if Tableau.rankBefore (rank j) (rank best) then j else best) i) := by
  induction rows generalizing i with
  | nil => rfl
  | cons j rows ih =>
    simp only [List.map_cons, List.foldl_cons]
    split <;> exact ih _

theorem pickRow?_eq {t : Tableau} {rows : List Nat} (rule : PivotRule)
    (h : ∀ i ∈ rows, i < t.rows.length) :
    (pickRow? t rule t.basicVariables rows : Guarded ε _) = .ok (t.pickRow? rule rows) := by
  cases rule with
  | dantzig => cases rows <;> rfl
  | bland =>
    have hkeyed : (rows.mapM fun i =>
        (item t.basicVariables i).map fun basic => (basic.bind t.column?, i) : Guarded ε _) =
        .ok (rows.map fun i => (t.basicRank? i, i)) :=
      mapM_eq_pure fun i hi => by
        rw [item_basicVariables (h i hi)]
        rfl
    unfold pickRow?
    simp only [hkeyed]
    cases rows with
    | nil => rfl
    | cons i rows =>
      exact congrArg (fun k => Except.ok (some k.2)) (foldl_keyed t.basicRank? i rows)

theorem chooseLeaving_eq {t : Tableau} {ratios : List Ratio} (rule : PivotRule)
    (h : ratios.length = t.rows.length) : chooseLeaving t rule t.basicVariables ratios =
      ofExcept (t.chooseLeaving rule ratios) := by
  -- There is one ratio for each row, so the numbers of tied ratios are those of rows.
  have htied : ∀ i ∈ Tableau.tiedRows ratios (Ratio.minimum ratios), i < t.rows.length := by
    intro i hi
    rw [← h]
    exact (List.getElem?_eq_some_iff.mp (Tableau.mem_tiedRows.mp hi)).1
  unfold chooseLeaving Tableau.chooseLeaving
  simp only [pickRow?_eq rule htied, ok_bind]
  split
  · rfl
  · cases hpick : t.pickRow? rule (Tableau.tiedRows ratios (Ratio.minimum ratios)) with
    | none => rfl
    | some row =>
      have hrow : row < t.rows.length := htied row (Tableau.pickRow?_spec hpick).1
      simp only [orFailure, ok_bind, item_basicVariables hrow]
      cases t.basicVariable? row <;> rfl

theorem length_of_ratioTest {t : Tableau} {entering : String} {ratios : List Ratio}
    (h : t.ratioTest entering = .ok ratios) : ratios.length = t.rows.length := by
  unfold Tableau.ratioTest at h
  split at h
  · rename_i rs hratios
    obtain rfl := Except.ok.inj h
    obtain ⟨column, -, hratios⟩ := Option.bind_eq_some_iff.mp hratios
    rw [← (mapM_eq_some_iff.mp hratios).length_eq, List.length_zipIdx]
  · cases h

theorem findLeavingStep_eq (e : Entering) (rule : PivotRule) :
    findLeavingStep e rule = ofExcept (e.findLeavingStep rule) := by
  unfold findLeavingStep Entering.findLeavingStep
  rw [ofExcept_bind, ratioTest_eq]
  cases hratios : e.tableau.ratioTest e.name with
  | error err => rfl
  | ok ratios =>
    have hlength := length_of_ratioTest hratios
    simp only [ofExcept_ok, ok_bind, basicVariables_eq, ratioLines_eq hlength,
      chooseLeaving_eq rule hlength, ofExcept_bind]

/-! ## The pivot -/

def pivot (l : Leaving) : Guarded SimplexError Pivoted := do
  let column ← orFailure (l.tableau.column? l.entering) (.missingColumn l.entering)
  let cell ← orFailure (l.tableau.cell? l.row column) (.missingColumn l.entering)
  let factor ← reported .arithmetic (reciprocal cell)
  let cells ← item l.tableau.rows l.row
  let pivotRow := cells.map (· * factor)
  let scaled ← replace l.tableau.rows l.row pivotRow
  .ok {
    tableau := { l.tableau with rows := Tableau.clearColumn scaled l.row column pivotRow }
    scaled := { l.tableau with rows := scaled }
    operations := .scale l.row factor :: Tableau.clearingOperations scaled l.row column }

def pivotStep (l : Leaving) : Guarded SimplexError Step := do
  let p ← pivot l
  let table ← text p.tableau
  .ok (l.pivotedStep p table)

/-- The pivot row, scaled, takes its own place. -/
theorem scaleRow_eq_set {rows : List (List Rat)} {row : Nat} {cells : List Rat}
    (h : rows[row]? = some cells) (factor : Rat) :
    Tableau.scaleRow rows row factor = rows.set row (cells.map (· * factor)) := by
  rw [Tableau.scaleRow, List.modify_eq_set_getElem?, h]
  rfl

theorem pivot_eq (l : Leaving) : pivot l = ofExcept l.pivot := by
  unfold pivot Leaving.pivot
  cases l.tableau.column? l.entering with
  | none => rfl
  | some column =>
    simp only [orFailure, ok_bind]
    cases hcell : l.tableau.cell? l.row column with
    | none => rfl
    | some cell =>
      -- The cell was found in the row, so the row can be taken and replaced.
      obtain ⟨cells, hrow, -⟩ := Option.bind_eq_some_iff.mp hcell
      have hlt : l.row < l.tableau.rows.length := (List.getElem?_eq_some_iff.mp hrow).1
      simp only [ok_bind, reciprocal_eq, reported_ofExcept]
      cases Rational.reciprocal cell with
      | error e => rfl
      | ok factor =>
        simp only [mapError_ok, ofExcept_ok, ok_bind, item_eq_ok hrow, replace_eq_ok hlt,
          Tableau.pivotBy, scaleRow_eq_set hrow]
        rw [List.getElem?_set_self hlt]
        rfl

/-- A leaving row beyond the last one is no fault: the pivot cell is looked for first. -/
example : pivot ⟨⟨.max, ["z", "x1", "rhs"], [[1], []], ⟨.max, "z", .empty⟩⟩, "x1", "e1", 7, []⟩ =
    .error (.failure (.missingColumn "x1")) := rfl

theorem pivotStep_eq (l : Leaving) : pivotStep l = ofExcept l.pivotStep := by
  unfold pivotStep Leaving.pivotStep
  rw [pivot_eq]
  cases l.pivot with
  | error e => rfl
  | ok p =>
    simp only [ofExcept_ok, ok_bind, text_eq]
    rfl

end ExactSimplex.Guarded
