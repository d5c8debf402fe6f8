import ExactSimplex.Program.Basic
import ExactSimplex.Standard.FreshName

/-! Standard form: every constraint an equality. A constraint that bounds its expression
from above gains a slack variable `e1`, `e2`, ..., one that bounds it from below an excess
variable `s1`, `s2`, ...; both are new, non-negative and enter with coefficient 1. Strict
relations have no standard form. -/

namespace ExactSimplex

inductive StandardizeError where
  | unsupportedRelation (index : Nat) (relation : Relation)
  | unknownRelation (text : String)
  deriving DecidableEq, Repr

def StandardizeError.message : StandardizeError → String
  | .unsupportedRelation index relation =>
    let symbol := relation.symbol
    s!"Cannot standardize strict '{symbol}' constraint (constraint {index})"
  | .unknownRelation text => s!"Unknown relation: {text}"

/-- The relation that a text names. -/
def Relation.read (s : String) : Except StandardizeError Relation :=
  match Relation.read? s with
  | some r => .ok r
  | none => .error (.unknownRelation (Text.trimmed s))

namespace Standard

/-- The stem of the variable that turns the relation into an equality. -/
def stem? : Relation → Option String
  | .atMost => some "e"
  | .atLeast => some "s"
  | _ => none

/-- The constraint as an equality with one more variable. -/
def close (c : Constraint) (name : String) : Constraint :=
  { c with expression := c.expression.insert name 1, relation := .equal }

/-- The equalities, and the declarations with a new variable for each inequality; new
names differ from `reserved` and from all that are declared. -/
def closeAll (reserved : String) (d : Declarations) :
    List Constraint → List Constraint × Declarations
  | [] => ([], d)
  | c :: cs =>
    match stem? c.relation with
    | none =>
      let (rest, d) := closeAll reserved d cs
      (c :: rest, d)
    | some stem =>
      let name := freshName (reserved :: d.names) stem
      let (rest, d) := closeAll reserved (d.push name .nonNegative) cs
      (close c name :: rest, d)

end Standard

namespace Program

/-- The first strict constraint, with its position. -/
def firstStrict? (p : Program) : Option (Nat × Relation) :=
  (p.constraints.zipIdx.find? fun c => c.1.relation.isStrict).map fun c => (c.2, c.1.relation)

def standardize (p : Program) : Except StandardizeError Program :=
  match p.firstStrict? with
  | some (index, relation) => .error (.unsupportedRelation index relation)
  | none =>
    let (constraints, declarations) :=
      Standard.closeAll p.objective.goal p.declarations p.constraints
    .ok { p with constraints, declarations }

end Program

namespace Standard

theorem closeAll_equal {reserved : String} {d : Declarations} {cs : List Constraint}
    (h : ∀ c ∈ cs, c.relation.isStrict = false) :
    ∀ c ∈ (closeAll reserved d cs).1, c.relation = .equal := by
  induction cs generalizing d with
  | nil => simp [closeAll]
  | cons c cs ih =>
    have hc := h c (by simp)
    have hcs : ∀ c ∈ cs, c.relation.isStrict = false := fun c hc => h c (by simp [hc])
    simp only [closeAll]
    split
    · rename_i hs
      have hr : c.relation = .equal := by
        cases hrel : c.relation <;> simp_all [stem?, Relation.isStrict]
      simp only [List.mem_cons, forall_eq_or_imp, hr, true_and]
      exact ih hcs
    · simp only [List.mem_cons, forall_eq_or_imp]
      exact ⟨rfl, ih hcs⟩

end Standard

end ExactSimplex
