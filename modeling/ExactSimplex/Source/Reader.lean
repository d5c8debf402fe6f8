import ExactSimplex.Source.Rule

/-! Reading a program from text. Blank lines are skipped, the first other line is the
objective, and each later one must be a constraint or else a declaration. The lines are
read in order and the first fault is reported with its number; only then are the
variables that occur compared with the declared ones. -/

namespace ExactSimplex.Source

/-- What has been read below the objective so far. -/
structure Draft where
  mentioned : List String
  constraints : List Constraint
  declarations : Declarations

namespace Draft

def empty : Draft := ⟨[], [], .empty⟩

def addConstraint (d : Draft) (c : Mentioning Constraint) : Draft :=
  { d with mentioned := d.mentioned ++ c.mentioned, constraints := d.constraints ++ [c.value] }

/-- Declare names in order; a name that is taken is a fault. -/
def declareAll (d : Draft) : List (String × Restriction) → Except Fault Draft
  | [] => .ok d
  | (name, r) :: rest =>
    match d.declarations.declare? name r with
    | none => .error (.duplicateDeclaration name)
    | some declarations => declareAll { d with declarations } rest

/-- Add a line: a constraint if it has that shape, otherwise a declaration. -/
def addLine (d : Draft) (line : List Char) : Except Fault Draft :=
  match readConstraint line with
  | .ok c => .ok (d.addConstraint c)
  | .error f =>
    if f.isShapeMismatch then
      match readDeclaration line with
      | .ok entries => d.declareAll entries
      | .error g =>
        .error (if g.isShapeMismatch then .invalidLine (String.ofList (Text.trim line)) else g)
    else .error f

def addLines (d : Draft) : List (List Char × Nat) → Except ParseError Draft
  | [] => .ok d
  | (line, n) :: rest =>
    match d.addLine line with
    | .error f => .error (f.atLine n)
    | .ok d => d.addLines rest

end Draft

/-- The lines that are not blank, with their numbers in the text. -/
def numberedLines (text : List Char) : List (List Char × Nat) :=
  ((Text.lines text).zipIdx 1).filter fun line => !line.1.all Text.isBlank

/-- What is wrong with the variables of a program as a whole. -/
def variableFault? (mentioned : List String) (p : Program) : Option Fault :=
  let goal := p.objective.goal
  if mentioned.contains goal || p.declarations.contains goal then
    some (.objectiveVariableReused goal)
  else
    match p.usedVariables.find? fun name => !p.declarations.contains name with
    | some name => some (.undeclaredVariable name)
    | none =>
      (p.variableNames.find? fun name => !p.usedVariables.contains name).map
        Fault.unusedDeclaration

/-- The program that a text writes. -/
def readProgramFrom (text : List Char) : Except ParseError Program :=
  match numberedLines text with
  | [] => .error Fault.emptyProgram.overall
  | (first, n) :: rest =>
    match readObjective first with
    | .error f => .error (f.atLine n)
    | .ok objective =>
      match Draft.empty.addLines rest with
      | .error e => .error e
      | .ok d =>
        let program := ⟨objective.value, d.constraints, d.declarations⟩
        match variableFault? (objective.mentioned ++ d.mentioned) program with
        | some f => .error f.overall
        | none => .ok program

def readProgram (text : String) : Except ParseError Program := readProgramFrom text.toList

theorem variableFault?_eq_none {mentioned : List String} {p : Program} :
    variableFault? mentioned p = none ↔
      p.objective.goal ∉ mentioned ∧ p.objective.goal ∉ p.variableNames ∧
        (∀ name, name ∈ p.usedVariables ↔ name ∈ p.variableNames) := by
  by_cases hm : p.objective.goal ∈ mentioned
  · simp [variableFault?, hm]
  by_cases hd : p.objective.goal ∈ p.declarations.names
  · simp [variableFault?, hd, Declarations.contains, Program.variableNames]
  simp only [variableFault?, hm, hd, Declarations.contains, Program.variableNames,
    List.contains_eq_mem, decide_false, Bool.or_false, not_false_eq_true, true_and]
  cases hu : p.usedVariables.find? fun name => !decide (name ∈ p.declarations.names) with
  | some name =>
    have hn := List.find?_some hu
    have hmem := List.mem_of_find?_eq_some hu
    simp only [Bool.not_eq_true', decide_eq_false_iff_not] at hn
    simp only [Bool.false_eq_true, if_false, reduceCtorEq, false_iff]
    exact fun h => hn ((h name).mp hmem)
  | none =>
    simp only [List.find?_eq_none, Bool.not_eq_true', decide_eq_false_iff_not,
      Decidable.not_not] at hu
    simp only [Bool.false_eq_true, if_false, Option.map_eq_none_iff, List.find?_eq_none,
      Bool.not_eq_true', decide_eq_false_iff_not, Decidable.not_not]
    exact ⟨fun h name => ⟨hu name, h name⟩, fun h name => (h name).mpr⟩

end ExactSimplex.Source
