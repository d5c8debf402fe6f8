import ExactSimplex.Engine.Failure
import ExactSimplex.Engine.Plan
import ExactSimplex.Trace.State

/-! Driving a state towards a target kind. After every step the way is planned anew, since a
conversion may lead to another kind than it normally does. How a conversion is applied is a
parameter here, and the number of steps that are left bounds the run. -/

namespace ExactSimplex

/-- How conversions are applied to states. -/
abbrev Applier := Conversion → State → Except ChainError Step

/-- The first conversion of the plan from one kind to another. -/
def nextConversion (kind goal : StateKind) : Except ChainError Conversion :=
  match Plan.shortest? kind goal with
  | some (c :: _) => .ok c
  | _ => .error (.noPathFound kind goal)

/-- A run stops at its targets and where nothing leads on. -/
def stopsAt (targets : List StateKind) (kind : StateKind) : Bool :=
  targets.contains kind || kind.isTerminal

/-- Drive a state towards `goal` until it stops, with at most `budget` of `limit` steps left. -/
def driveTowards (apply : Applier) (limit : Nat) (goal : StateKind) (targets : List StateKind) :
    Nat → State → Except ChainError (List Step)
  | budget, state =>
    if stopsAt targets state.kind then .ok []
    else
      match budget with
      | 0 => .error (.iterationLimitExceeded limit)
      | budget + 1 => do
        let conversion ← nextConversion state.kind goal
        let step ← apply conversion state
        let later ← driveTowards apply limit goal targets budget step.result
        .ok (step :: later)

/-- Drive a state until it has one of the target kinds or cannot go on. The first target is
the one that is planned for; without targets there is nothing to do. -/
def drive (apply : Applier) (limit : Nat) (state : State) :
    List StateKind → Except ChainError (List Step)
  | [] => .ok []
  | goal :: others => driveTowards apply limit goal (goal :: others) limit state

end ExactSimplex
