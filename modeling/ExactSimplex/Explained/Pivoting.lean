import ExactSimplex.Pivoting.Start
import ExactSimplex.Tableau.Text
import ExactSimplex.Trace.Conversion
import ExactSimplex.Trace.State

/-! The steps of the simplex method on a tableau, with their explanations. An explanation is made
of what was found for it, the basic variables of rows and the texts of tables. -/

namespace ExactSimplex

namespace Tableau

/-! ## The starting basis -/

def explainStart (basis : List String) : String :=
  let names := ", ".intercalate basis
  "A basic feasible solution has one basic variable per constraint. The variables added " ++
    "during standardization form an identity block, so they are taken as the initial basis: " ++
    s!"{names}."

/-- The step to a basis of the given variables. -/
def acceptedStep (t : Tableau) (basis : List String) : Step :=
  .plain Conversion.acceptBasis.name "Find a basic feasible solution" (explainStart basis)
    (.basicFeasible t)

/-- Accept the basis that the tableau shows, if it is one. -/
def acceptBasisStep (t : Tableau) : Except SimplexError Step :=
  match t.startFailure? with
  | some e => .error e
  | none => .ok (t.acceptedStep (t.constraintRows.filterMap t.basicVariable?))

/-! ## The entering variable -/

/-- The sign of an improving reduced cost, and its extreme. -/
def improvingWords (t : Tableau) : String × String :=
  match t.direction with
  | .max => ("negative", "most negative")
  | .min => ("positive", "most positive")

def explainCosts (t : Tableau) : String :=
  let problem := t.direction.word
  let extreme := t.improvingWords.2
  let goal := t.objective.goal
  let costs := String.join (t.reducedCosts.map fun c => "\n  " ++ Solution.equationText c.1 c.2)
  s!"The entering variable of a {problem} problem has the {extreme} reduced cost (row-0 " ++
    s!"value). Ignoring {goal} and rhs, the reduced costs are:{costs}"

def explainOptimal (t : Tableau) : String :=
  let sign := t.improvingWords.1
  s!"\nNo reduced cost is {sign}, so the current tableau is optimal."

def explainEntering (t : Tableau) (name : String) (cost : Rat) : String :=
  let sign := t.improvingWords.1
  let values := ", ".intercalate (t.improvingCosts.map fun c => Rational.text c.2)
  let picked := Solution.equationText name cost
  s!"\nThe {sign} values ({values}) mean the tableau is not optimal yet. {picked} is picked " ++
    "as the entering variable."

/-- Choose the entering variable, or find that the tableau is optimal. -/
def pickEnteringStep (t : Tableau) (rule : PivotRule) : Step :=
  let what := "Try to find an entering variable"
  match t.entering? rule with
  | none =>
    .plain Conversion.pickEntering.name what (t.explainCosts ++ t.explainOptimal) (.optimal t)
  | some (name, cost) =>
    .plain Conversion.pickEntering.name what (t.explainCosts ++ t.explainEntering name cost)
      (.entering ⟨t, name⟩)

end Tableau

/-! ## The leaving variable -/

namespace Entering

/-- The line of a row, whose basic variable is given. -/
def explainRatio (e : Entering) (row : Nat) (basic : Option String) (ratio : Ratio) : String :=
  let basic := basic.getD "-"
  let entry := (e.tableau.get? row e.name).getD 0
  let rhs := Rational.text ((e.tableau.rhs? row).getD 0)
  let divisor := Rational.text entry
  let sign := Rational.signWord entry
  let result := ratio.text
  s!"\n  Row {row} ({basic}): {rhs} / {divisor} ({sign}) => {result}"

/-- The account of the ratio test, with a line for each row at its end. -/
def explainRatios (lines : List String) : String :=
  "The min-ratio test divides each row's rhs (the value of its basic variable) by its " ++
    "entry in the entering column. Rows whose entry is not positive get ratio ∞." ++
    String.join lines

def explainUnbounded (e : Entering) : String :=
  let name := e.name
  s!"\nNo row limits {name}, so it can grow without bound: the problem is unbounded."

def explainLeaving (row : Nat) (leaving : String) (ratio : Ratio) : String :=
  let least := ratio.text
  s!"\nThe smallest ratio is {least} in row {row}, so its basic variable {leaving} leaves the " ++
    "basis."

/-- The step to what was chosen by the ratios, with the lines that the rows have. -/
def leavingStep (e : Entering) (ratios : List Ratio) (lines : List String) : LeavingChoice → Step
  | .unbounded =>
    .plain Conversion.findLeaving.name "Find the leaving variable"
      (explainRatios lines ++ e.explainUnbounded) (.unbounded e)
  | .leaves row name ratio =>
    .plain Conversion.findLeaving.name "Find the leaving variable"
      (explainRatios lines ++ explainLeaving row name ratio)
      (.leaving ⟨e.tableau, e.name, name, row, ratios⟩)

/-- Choose the leaving variable by the min-ratio test, or find that nothing limits the
entering one. -/
def findLeavingStep (e : Entering) (rule : PivotRule) : Except SimplexError Step := do
  let ratios ← e.tableau.ratioTest e.name
  let choice ← e.tableau.chooseLeaving rule ratios
  let lines := ratios.mapIdx fun row ratio =>
    e.explainRatio row (e.tableau.basicVariable? row) ratio
  .ok (e.leavingStep ratios lines choice)

end Entering

/-! ## The pivot -/

namespace Leaving

/-- The account of a pivot, with the text of the new tableau at its end. -/
def explainPivot (l : Leaving) (p : Pivoted) (table : String) : String :=
  let entering := l.entering
  let leaving := l.leaving
  let row := l.row
  let operations := "\n".intercalate (p.operations.map fun op => "  " ++ op.text)
  s!"Pivot on the cell where column {entering} meets row {row} (basic variable {leaving}). The " ++
    "row is first divided by the pivot cell, then a multiple of it is added to every other row " ++
    s!"so that {entering} becomes basic:\n{operations}\n{table}"

def pivotedStep (l : Leaving) (p : Pivoted) (table : String) : Step :=
  .plain Conversion.pivot.name "Pivot to the next feasible solution" (l.explainPivot p table)
    (.pivoted p)

/-- Exchange the two variables. -/
def pivotStep (l : Leaving) : Except SimplexError Step :=
  l.pivot.map fun p => l.pivotedStep p p.tableau.text

end Leaving

/-- Go on from a pivoted tableau as a basic feasible one. -/
def Pivoted.resumeStep (p : Pivoted) : Step :=
  .plain Conversion.resume.name "Continue from the pivoted tableau"
    "The pivot keeps every rhs non-negative, so the new tableau is again basic feasible."
    (.basicFeasible p.tableau)

end ExactSimplex
