import ExactSimplex.Pivoting.Exchange
import ExactSimplex.Solution.Basic
import ExactSimplex.Trace.Kind

/-! States, each with what it holds, and the steps between them. A step says what was done
and how, and keeps the state that it led to; an iteration of the simplex method keeps
its finer steps as well. -/

namespace ExactSimplex

inductive State where
  | program (p : Program)
  /-- A program all of whose constraints are equalities. -/
  | standardProgram (p : Program)
  /-- A tableau that has not been checked for a basic feasible solution. -/
  | unknownTableau (t : Tableau)
  | basicFeasible (t : Tableau)
  | entering (e : Entering)
  | leaving (l : Leaving)
  | pivoted (p : Pivoted)
  | optimal (t : Tableau)
  /-- The entering variable can grow without bound. -/
  | unbounded (e : Entering)
  | solution (s : Solution)
  deriving DecidableEq

namespace State

def kind : State → StateKind
  | program _ => .program
  | standardProgram _ => .standardProgram
  | unknownTableau _ => .unknownTableau
  | basicFeasible _ => .basicFeasible
  | entering _ => .entering
  | leaving _ => .leaving
  | pivoted _ => .pivoted
  | optimal _ => .optimal
  | unbounded _ => .unbounded
  | solution _ => .solution

def program? : State → Option Program
  | program p => some p
  | standardProgram p => some p
  | _ => none

/-- The tableau of any state that carries one. -/
def tableau? : State → Option Tableau
  | unknownTableau t => some t
  | basicFeasible t => some t
  | optimal t => some t
  | entering e => some e.tableau
  | unbounded e => some e.tableau
  | leaving l => some l.tableau
  | pivoted p => some p.tableau
  | _ => none

def solution? : State → Option Solution
  | solution s => some s
  | _ => none

end State

structure Step where
  /-- The conversion that made the step. -/
  name : String
  what : String
  how : String
  result : State
  substeps : List Step

namespace Step

/-- A step without finer steps. -/
def plain (name what how : String) (result : State) : Step := ⟨name, what, how, result, []⟩

def kind (s : Step) : StateKind := s.result.kind

end Step

end ExactSimplex
