/-! The kinds of states on the way from a program to its solution, in that order. -/

namespace ExactSimplex

inductive StateKind where
  | program
  | standardProgram
  | unknownTableau
  | basicFeasible
  | entering
  | leaving
  | pivoted
  | optimal
  | unbounded
  | solution
  deriving DecidableEq, Repr

namespace StateKind

def name : StateKind → String
  | program => "program"
  | standardProgram => "std-program"
  | unknownTableau => "unknown-tableau"
  | basicFeasible => "basic-feasible"
  | entering => "entering"
  | leaving => "leaving"
  | pivoted => "pivoted-next"
  | optimal => "optimal"
  | unbounded => "unbounded"
  | solution => "solution"

def all : List StateKind :=
  [program, standardProgram, unknownTableau, basicFeasible, entering, leaving, pivoted, optimal,
    unbounded, solution]

/-- No conversion leads on from here. -/
def isTerminal (k : StateKind) : Bool := k == unbounded || k == solution

/-- The kind of the given name. -/
def ofName? (s : String) : Option StateKind := all.find? fun k => k.name == s

theorem mem_all (k : StateKind) : k ∈ all := by cases k <;> decide

theorem ofName?_name (k : StateKind) : ofName? k.name = some k := by
  cases k <;> decide +kernel

end StateKind

end ExactSimplex
