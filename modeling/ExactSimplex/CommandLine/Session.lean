import ExactSimplex.CommandLine.Arguments
import ExactSimplex.CommandLine.ReadFailure
import ExactSimplex.Json.Text
import ExactSimplex.Json.Trace
import ExactSimplex.Solve
import ExactSimplex.Trace.Report

/-! What a command answers to the text that it was given, as pure data: what goes to the two
output streams and the exit code. -/

namespace ExactSimplex.CommandLine

structure Outcome where
  code : Nat
  out : String
  err : String
  deriving DecidableEq, Repr

namespace Outcome

def answer (text : String) : Outcome := ⟨0, text, ""⟩

def failure (context message : String) : Outcome := ⟨1, "", context ++ ": " ++ message ++ "\n"⟩

/-- The answer to arguments that make no command line. -/
def usage : Outcome :=
  ⟨2, "", "usage: [-f pretty|json] [-v] (parse|check|standardize|tableau|solve) FILE\n" ++
    "solve takes [-s] [--max-steps N] [--pivot-rule dantzig|bland]; - reads standard input\n"⟩

end Outcome

def prettyLine (j : Json) : String := j.pretty 0 ++ "\n"

/-- Answer with what `show` makes of the program that the text writes. -/
def withProgram (text : String) (answer : Program → String) : Outcome :=
  match Source.readProgram text with
  | .ok p => .answer (answer p)
  | .error e => .failure "Parse error" e.message

/-- The steps if they are asked for, then the state that the last one led to. -/
def stepsText (showSteps : Bool) (steps : List Step) : String :=
  (if showSteps then reportSteps steps else "") ++
    match steps.getLast? with
    | some s => s.result.report ++ "\n"
    | none => ""

/-- Drive the program to a state of the given kind and show the way. -/
def runTo (settings : Settings) (output : Output) (showSteps : Bool) (target : StateKind)
    (text : String) : Outcome :=
  match stepsTo settings text target with
  | .error e => .failure "Error" e.message
  | .ok steps =>
    match output with
    | .json => .answer (prettyLine (stepsToJson steps))
    | .pretty => .answer (stepsText showSteps steps)

/-- The outcome of a command for the text of its file. -/
def Invocation.run (i : Invocation) (text : String) : Outcome :=
  match i.command with
  | .parse =>
    withProgram text fun p =>
      match i.output with
      | .json => prettyLine p.toJson
      | .pretty => p.text ++ "\n"
  | .check =>
    withProgram text fun p =>
      let constraints := p.constraints.length
      let declared := p.declarations.entries.length
      s!"OK: {constraints} constraints, {declared} variables\n"
  | .standardize => runTo {} i.output true .standardProgram text
  | .tableau => runTo {} i.output false .unknownTableau text
  | .solve => runTo i.settings i.output i.showSteps .solution text

/-- The outcome of a command, given what reading its file yields. -/
def Invocation.outcome (i : Invocation) : Except ReadFailure String → Outcome
  | .ok text => i.run text
  | .error e => .failure "Error reading input" e.message

end ExactSimplex.CommandLine
