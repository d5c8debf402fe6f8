import ExactSimplex.Solution.Reading
import ExactSimplex.Trace.Conversion
import ExactSimplex.Trace.State

/-! The last step: reading the solution off an optimal tableau. -/

namespace ExactSimplex

def Solution.explain (s : Solution) : String :=
  let basis := ", ".intercalate s.basis
  let lines := s.text
  s!"Each basic variable ({basis}) equals the rhs of its row; every other variable is 0. " ++
    s!"Substituting into the objective gives the optimal value:\n{lines}"

/-- The step that reads this solution. -/
def Solution.readingStep (s : Solution) : Step :=
  .plain Conversion.readSolution.name "Read the solution from the optimal tableau" s.explain
    (.solution s)

def Tableau.readSolutionStep (t : Tableau) : Except SimplexError Step :=
  t.readSolution.map Solution.readingStep

end ExactSimplex
