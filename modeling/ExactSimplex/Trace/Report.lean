import ExactSimplex.Program.Text
import ExactSimplex.Tableau.Text
import ExactSimplex.Text.Line
import ExactSimplex.Trace.State

/-! States and steps as text for a reader. The explanation of a step is indented below its
title, and the finer steps of an iteration are indented once more. -/

namespace ExactSimplex

namespace State

def report : State → String
  | program p => p.text
  | standardProgram p => p.text
  | solution s => s.text
  | unbounded e =>
    let name := e.name
    let table := e.tableau.text
    s!"Unbounded: {name} can grow without limit\n{table}"
  | unknownTableau t => t.text
  | basicFeasible t => t.text
  | optimal t => t.text
  | entering e => e.tableau.text
  | leaving l => l.tableau.text
  | pivoted p => p.tableau.text

end State

namespace Step

def indent (depth : Nat) : String := "".pushn ' ' (2 * depth)

/-- The title of a step and the lines of its explanation. -/
def ownLines (depth : Nat) (s : Step) : List String :=
  (indent depth ++ "[" ++ s.name ++ "] " ++ s.what) ::
    (Text.lines s.how.toList).map fun line => indent (depth + 1) ++ String.ofList line

mutual

/-- The lines of a step, then those of its finer steps. -/
def reportLines (depth : Nat) : Step → List String
  | ⟨name, what, how, result, substeps⟩ =>
    ownLines depth ⟨name, what, how, result, substeps⟩ ++ listLines (depth + 1) substeps

def listLines (depth : Nat) : List Step → List String
  | [] => []
  | s :: rest => reportLines depth s ++ listLines depth rest

end

/-- The text of a step, with a line break at the end of each line. -/
def report (s : Step) : String := String.join ((reportLines 0 s).map (· ++ "\n"))

end Step

/-- Each step, followed by an empty line. -/
def reportSteps (steps : List Step) : String := String.join (steps.map fun s => s.report ++ "\n")

end ExactSimplex
