import ExactSimplex.Engine.Drive
import ExactSimplex.Explained.Pivoting
import ExactSimplex.Explained.Program
import ExactSimplex.Explained.Solution

/-! The engine: conversions applied to states, and runs of them under settings. An iteration
of the simplex method is itself a run, from a basic feasible tableau to the next pivoted
one. Iterations do not nest: the run inside one plans for a pivoted tableau and so never
asks for another iteration, and the applier that it is given would refuse one. -/

namespace ExactSimplex

structure Settings where
  /-- The most steps that one run may take. -/
  maxSteps : Nat := 100
  rule : PivotRule := .dantzig
  deriving DecidableEq

/-- Apply a conversion, with the given way to make an iteration. -/
def applyWith (iterate : Tableau → Except ChainError Step) (rule : PivotRule) : Applier
  | .standardize, .program p => p.standardizeStep.mapError .standardize
  | .layOut, .standardProgram p => p.layoutStep.mapError .tableau
  | .acceptBasis, .unknownTableau t => t.acceptBasisStep.mapError .simplex
  | .iterate, .basicFeasible t => iterate t
  | .pickEntering, .basicFeasible t => .ok (t.pickEnteringStep rule)
  | .findLeaving, .entering e => (e.findLeavingStep rule).mapError .simplex
  | .pivot, .leaving l => l.pivotStep.mapError .simplex
  | .resume, .pivoted p => .ok p.resumeStep
  | .readSolution, .optimal t => t.readSolutionStep.mapError .simplex
  | c, state => .error (.stateMismatch c.source state.kind)

/-- A numbered line for each step. -/
def explainIteration (steps : List Step) : String :=
  "\n".intercalate (steps.mapIdx fun i s =>
    let number := i + 1
    let name := s.name
    let what := s.what
    s!"{number}. ({name}) {what}")

/-- Where an iteration ends, given the state in which its last step ended. -/
def iterationResult : Option State → Except ChainError State
  | some (.pivoted p) => .ok (.basicFeasible p.tableau)
  | some (.optimal t) => .ok (.optimal t)
  | some (.unbounded e) => .ok (.unbounded e)
  | some state => .error (.stateMismatch .pivoted state.kind)
  | none => .error (.stateMismatch .pivoted .basicFeasible)

/-- The step of an iteration that made the given steps and ended in `result`. -/
def iterationStep (steps : List Step) (result : State) : Step :=
  ⟨Conversion.iterate.name, "Perform an iteration of the simplex algorithm",
    explainIteration steps, result, steps⟩

/-- One iteration, whose steps are made by the given applier. -/
def iterateWith (apply : Applier) (limit : Nat) (t : Tableau) : Except ChainError Step := do
  let steps ← drive apply limit (.basicFeasible t) [.pivoted, .optimal, .unbounded]
  let result ← iterationResult (steps.getLast?.map Step.result)
  .ok (iterationStep steps result)

namespace Settings

/-- The applier inside an iteration, which makes no iterations. -/
def innerApply (s : Settings) : Applier :=
  applyWith (fun _ => .error (.stateMismatch .pivoted .basicFeasible)) s.rule

def iterate (s : Settings) (t : Tableau) : Except ChainError Step :=
  iterateWith s.innerApply s.maxSteps t

def apply (s : Settings) : Applier := applyWith s.iterate s.rule

/-- Drive a state until it has one of the target kinds or cannot go on. -/
def convertToAny (s : Settings) (state : State) (targets : List StateKind) :
    Except ChainError (List Step) :=
  drive s.apply s.maxSteps state targets

def convertTo (s : Settings) (state : State) (target : StateKind) :
    Except ChainError (List Step) :=
  s.convertToAny state [target]

/-- The simplex method on a tableau that has just been laid out. -/
def runSimplex (s : Settings) (t : Tableau) : Except ChainError (List Step) :=
  s.convertTo (.unknownTableau t) .solution

end Settings

end ExactSimplex
