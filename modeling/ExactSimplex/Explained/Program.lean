import ExactSimplex.Program.Text
import ExactSimplex.Standard.Form
import ExactSimplex.Tableau.Layout
import ExactSimplex.Tableau.Text
import ExactSimplex.Trace.Conversion
import ExactSimplex.Trace.State

/-! The steps from a program to its first tableau, with their explanations. -/

namespace ExactSimplex.Program

/-- A line for each constraint, before and after. -/
def closingLines (before after : Program) : List String :=
  let order := after.variableNames
  before.constraints.zipWith
    (fun old new => "\n  " ++ old.text order ++ "  becomes  " ++ new.text order)
    after.constraints

def explainStandard (before after : Program) : String :=
  "To put a program in standard form every inequality must become an equality. " ++
    "A non-negative slack variable is added to each <= constraint and a non-negative " ++
    "excess variable to each >= constraint:" ++ String.join (closingLines before after)

/-- Put the program into standard form. -/
def standardizeStep (p : Program) : Except StandardizeError Step :=
  p.standardize.map fun standard =>
    .plain Conversion.standardize.name "Convert to standard form" (explainStandard p standard)
      (.standardProgram standard)

/-- The objective with all its variables on one side. -/
def movedObjective (o : Objective) : LinearForm :=
  LinearForm.ofTerms ((o.goal, 1) :: o.expression.terms.map fun t => (t.1, -t.2))

/-- The account of a layout, with the text of the tableau at its end. -/
def explainLayout (p : Program) (table : String) : String :=
  let goal := p.objective.goal
  let order := p.variableNames
  let expression := p.objective.expression.text order
  let moved := (movedObjective p.objective).text (goal :: order)
  s!"A tableau only has constants on the right, so the objective function\n  {goal} = " ++
    s!"{expression}\nis rewritten as\n  {moved} = 0\nwhich forms the top row. Each constraint " ++
    s!"becomes one row below it.\n{table}"

def laidOutStep (p : Program) (t : Tableau) (table : String) : Step :=
  .plain Conversion.layOut.name "Represent the program with a tableau" (explainLayout p table)
    (.unknownTableau t)

/-- Lay out the program, which must be in standard form, as a tableau. -/
def layoutStep (p : Program) : Except TableauError Step :=
  (Tableau.ofProgram p).map fun t => laidOutStep p t t.text

end ExactSimplex.Program
