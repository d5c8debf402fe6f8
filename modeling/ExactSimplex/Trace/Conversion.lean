import ExactSimplex.Trace.Kind

/-! The conversions between kinds of states, in the order in which they are preferred. A
conversion has the kind that it starts from and the kind that it normally leads to; choosing
a variable may instead find that the tableau is optimal or the problem unbounded. -/

namespace ExactSimplex

inductive Conversion where
  | standardize
  | layOut
  | acceptBasis
  | iterate
  | pickEntering
  | findLeaving
  | pivot
  | resume
  | readSolution
  deriving DecidableEq, Repr

namespace Conversion

def all : List Conversion :=
  [standardize, layOut, acceptBasis, iterate, pickEntering, findLeaving, pivot, resume,
    readSolution]

def name : Conversion → String
  | standardize => "standardize_program"
  | layOut => "build_tableau"
  | acceptBasis => "find_basic_feasible_solution"
  | iterate => "simplex_iteration"
  | pickEntering => "pick_entering_variable"
  | findLeaving => "find_leaving_variable"
  | pivot => "pivot"
  | resume => "continue_from_pivot"
  | readSolution => "read_solution"

def source : Conversion → StateKind
  | standardize => .program
  | layOut => .standardProgram
  | acceptBasis => .unknownTableau
  | iterate => .basicFeasible
  | pickEntering => .basicFeasible
  | findLeaving => .entering
  | pivot => .leaving
  | resume => .pivoted
  | readSolution => .optimal

def target : Conversion → StateKind
  | standardize => .standardProgram
  | layOut => .unknownTableau
  | acceptBasis => .basicFeasible
  | iterate => .optimal
  | pickEntering => .entering
  | findLeaving => .leaving
  | pivot => .pivoted
  | resume => .basicFeasible
  | readSolution => .solution

/-- The conversions that start from a kind. -/
def startingFrom (k : StateKind) : List Conversion := all.filter fun c => c.source == k

/-- The first conversion of the given name. -/
def ofName? (s : String) : Option Conversion := all.find? fun c => c.name == s

theorem mem_all (c : Conversion) : c ∈ all := by cases c <;> decide

end Conversion

end ExactSimplex
