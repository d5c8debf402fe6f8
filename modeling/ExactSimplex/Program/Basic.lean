import ExactSimplex.LinearForm.Basic
import ExactSimplex.Program.Declarations

/-! Linear programs: an objective, constraints in their order and the declared variables.
A program is plain data; what it takes to be coherent is the predicate `WellFormed`. -/

namespace ExactSimplex

structure Objective where
  direction : Direction
  /-- The variable that holds the objective's value. -/
  goal : String
  expression : LinearForm
  deriving DecidableEq

structure Constraint where
  expression : LinearForm
  relation : Relation
  rhs : Rat
  deriving DecidableEq

structure Program where
  objective : Objective
  constraints : List Constraint
  declarations : Declarations
  deriving DecidableEq

/-! ## Sets of names -/

/-- Add a name to an increasing list of names. -/
def addName (name : String) : List String → List String
  | [] => [name]
  | n :: ns =>
    if name < n then name :: n :: ns else if name = n then n :: ns else n :: addName name ns

theorem mem_addName {name other : String} {ns : List String} :
    other ∈ addName name ns ↔ other = name ∨ other ∈ ns := by
  induction ns with
  | nil => simp [addName]
  | cons n ns ih =>
    simp only [addName]
    split
    · simp
    · split
      · rename_i heq; simp [heq]
      · simp only [List.mem_cons, ih]; grind

theorem mem_foldr_addName {other : String} {names : List String} :
    other ∈ names.foldr addName [] ↔ other ∈ names := by
  induction names with
  | nil => simp
  | cons n ns ih => simp [mem_addName, ih]

/-- Nothing is found among the numbered members of a list if no member has the property. -/
theorem find?_zipIdx_eq_none {α : Type} {f : α → Bool} {l : List α} :
    (l.zipIdx.find? fun c => f c.1) = none ↔ ∀ a ∈ l, f a = false := by
  simp only [List.find?_eq_none, Prod.forall, Bool.not_eq_true]
  constructor
  · intro h a ha
    obtain ⟨i, hi, rfl⟩ := List.getElem_of_mem ha
    exact h _ i (List.mem_zipIdx_iff_getElem?.mpr (by simp [hi]))
  · intro h a i ha
    exact h a (List.mem_of_getElem? (List.mem_zipIdx_iff_getElem?.mp ha))

namespace Program

/-- The objective's expression, then those of the constraints. -/
def expressions (p : Program) : List LinearForm :=
  p.objective.expression :: p.constraints.map (·.expression)

/-- The variables that occur in some expression, in increasing order. -/
def usedVariables (p : Program) : List String :=
  (p.expressions.flatMap LinearForm.names).foldr addName []

def variableNames (p : Program) : List String := p.declarations.names

/-- All constraints are equalities. -/
def isStandard (p : Program) : Bool := p.constraints.all (·.relation == .equal)

def hasStrict (p : Program) : Bool := p.constraints.any (·.relation.isStrict)

theorem mem_usedVariables {p : Program} {name : String} :
    name ∈ p.usedVariables ↔ ∃ e ∈ p.expressions, name ∈ e.names := by
  simp [usedVariables, mem_foldr_addName]

/-! ## Meaning -/

/-- What a program read from text is: declared names are distinct and are exactly the
variables that occur with a non-zero coefficient, and the objective's variable is
neither declared nor used. -/
structure WellFormed (p : Program) : Prop where
  distinct : p.variableNames.Nodup
  reduced : ∀ e ∈ p.expressions, e.Reduced
  declared : ∀ name, name ∈ p.usedVariables ↔ name ∈ p.variableNames
  objectiveFree : p.objective.goal ∉ p.variableNames

end Program

/-- The constraint holds when the variables have the values that `v` gives them. -/
def Constraint.Holds (c : Constraint) (v : String → Rat) : Prop :=
  c.relation.Holds (c.expression.eval v) c.rhs

/-- All constraints hold. -/
def Program.Satisfied (p : Program) (v : String → Rat) : Prop := ∀ c ∈ p.constraints, c.Holds v

/-- The restriction of every declared variable is kept. -/
def Program.Respected (p : Program) (v : String → Rat) : Prop :=
  ∀ d ∈ p.declarations.entries, d.2.Allows (v d.1)

end ExactSimplex
