import ExactSimplex.Json.Tableau
import ExactSimplex.Trace.State

/-! States and steps as JSON. A state is written with its kind under `type` and what it
holds under `value`; a step holds its finer steps in turn. -/

namespace ExactSimplex

namespace StateKind

def toJson (k : StateKind) : Json := .string k.name

def ofJson? : Json → Option StateKind := Json.oneOf? all name

end StateKind

namespace PivotRule

def toJson (r : PivotRule) : Json := .string r.word

def ofJson? : Json → Option PivotRule := Json.oneOf? all word

end PivotRule

namespace State

def fields : List String := ["type", "value"]

/-- What the state holds. -/
def contentJson : State → Json
  | program p => p.toJson
  | standardProgram p => p.toJson
  | unknownTableau t => t.toJson
  | basicFeasible t => t.toJson
  | entering e => e.toJson
  | leaving l => l.toJson
  | pivoted p => p.toJson
  | optimal t => t.toJson
  | unbounded e => e.toJson
  | solution s => s.toJson

def toJson (s : State) : Json := .object [("type", s.kind.toJson), ("value", s.contentJson)]

/-- The state of a kind that holds what the value says. -/
def ofContent? (v : Json) : StateKind → Option State
  | .program => (Program.ofJson? v).map program
  | .standardProgram => (Program.ofJson? v).map standardProgram
  | .unknownTableau => (Tableau.ofJson? v).map unknownTableau
  | .basicFeasible => (Tableau.ofJson? v).map basicFeasible
  | .entering => (Entering.ofJson? v).map entering
  | .leaving => (Leaving.ofJson? v).map leaving
  | .pivoted => (Pivoted.ofJson? v).map pivoted
  | .optimal => (Tableau.ofJson? v).map optimal
  | .unbounded => (Entering.ofJson? v).map unbounded
  | .solution => (Solution.ofJson? v).map solution

def ofJson? (j : Json) : Option State := do
  match ← j.record? fields with
  | [kind, content] => ofContent? content (← StateKind.ofJson? kind)
  | _ => none

end State

namespace Step

def fields : List String := ["step_name", "what", "how", "result", "substeps"]

mutual

def toJson : Step → Json
  | ⟨name, what, how, result, substeps⟩ =>
    .object [("step_name", .string name), ("what", .string what), ("how", .string how),
      ("result", result.toJson), ("substeps", .array (listToJson substeps))]

def listToJson : List Step → List Json
  | [] => []
  | s :: rest => toJson s :: listToJson rest

end

mutual

def ofJson? (j : Json) : Option Step :=
  match _h : j.record? fields with
  | some [name, what, how, result, .array substeps] => do
    some ⟨← name.string?, ← what.string?, ← how.string?, ← State.ofJson? result,
      ← listOfJson? substeps⟩
  | _ => none
termination_by sizeOf j
decreasing_by
  have := Json.sizeOf_record?_lt _h (v := .array substeps) (by simp)
  simp only [Json.array.sizeOf_spec] at this
  omega

def listOfJson? : List Json → Option (List Step)
  | [] => some []
  | j :: rest => do some ((← ofJson? j) :: (← listOfJson? rest))
termination_by js => sizeOf js

end

end Step

def stepsToJson (steps : List Step) : Json := .array (Step.listToJson steps)

def stepsOfJson? (j : Json) : Option (List Step) := j.array?.bind Step.listOfJson?

end ExactSimplex
