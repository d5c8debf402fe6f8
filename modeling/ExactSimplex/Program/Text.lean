import ExactSimplex.LinearForm.Text
import ExactSimplex.Program.Basic

/-! A program as text: the objective, a line for each constraint, and a line for each run
of neighbouring declarations with one restriction. Terms follow the declared order. The
text of a well-formed program with non-empty expressions reads back as the program. -/

namespace ExactSimplex

def Objective.text (o : Objective) (order : List String) : String :=
  o.direction.word ++ " " ++ o.goal ++ " = " ++ o.expression.text order

def Constraint.text (c : Constraint) (order : List String) : String :=
  c.expression.text order ++ " " ++ c.relation.symbol ++ " " ++ Rational.text c.rhs

namespace Declarations

/-- Longest runs of neighbours with the same restriction. -/
def runs : List (String × Restriction) → List (List String × Restriction)
  | [] => []
  | (name, r) :: rest =>
    match runs rest with
    | [] => [([name], r)]
    | (names, s) :: more =>
      if r = s then (name :: names, s) :: more else ([name], r) :: (names, s) :: more

def runText (run : List String × Restriction) : String :=
  ", ".intercalate run.1 ++ " " ++ run.2.keyword

/-- The runs take the declarations apart and keep their order. -/
theorem runs_flatMap (entries : List (String × Restriction)) :
    (runs entries).flatMap (fun run => run.1.map fun name => (name, run.2)) = entries := by
  induction entries with
  | nil => rfl
  | cons e rest ih =>
    obtain ⟨name, r⟩ := e
    cases h : runs rest with
    | nil => simp_all [runs]
    | cons run more =>
      obtain ⟨names, s⟩ := run
      by_cases hr : r = s <;> simp_all [runs]

end Declarations

namespace Program

/-- The lines of the program's text. -/
def textLines (p : Program) : List String :=
  p.objective.text p.variableNames :: p.constraints.map (·.text p.variableNames) ++
    (Declarations.runs p.declarations.entries).map Declarations.runText

def text (p : Program) : String := "\n".intercalate p.textLines

end Program

end ExactSimplex
