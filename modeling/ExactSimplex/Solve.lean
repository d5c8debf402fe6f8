import ExactSimplex.Engine.Run
import ExactSimplex.Source.Reader

/-! From program text to the steps that solve it. -/

namespace ExactSimplex

inductive SolveError where
  | parse (e : Source.ParseError)
  | chain (e : ChainError)
  deriving DecidableEq

def SolveError.message : SolveError → String
  | .parse e => e.message
  | .chain e => e.message

/-- Read a program and drive it to a state of the given kind. -/
def stepsTo (s : Settings) (text : String) (target : StateKind) :
    Except SolveError (List Step) :=
  match Source.readProgram text with
  | .error e => .error (.parse e)
  | .ok p => (s.convertTo (.program p) target).mapError .chain

/-- The last step holds the solution, or the tableau that shows that there is none. -/
def solve (s : Settings) (text : String) : Except SolveError (List Step) :=
  stepsTo s text .solution

end ExactSimplex
