import ExactSimplex.Json.Decode
import ExactSimplex.Program.Basic

/-! Programs as JSON. A linear form is an object from names to coefficients, taken as it is
stored: explicit zeros are kept, and so are repeated declarations. -/

namespace ExactSimplex

namespace LinearForm

def toJson (p : LinearForm) : Json :=
  .object (p.terms.map fun t => (t.1, Json.ofRational t.2))

def ofJson? (j : Json) : Option LinearForm := do
  let members ← j.object?
  let terms ← members.mapM fun m => (m.2.rational?).map fun q => (m.1, q)
  some (ofStored terms)

end LinearForm

namespace Direction

def toJson (d : Direction) : Json := .string d.word

def ofJson? : Json → Option Direction := Json.oneOf? all word

end Direction

namespace Relation

def toJson (r : Relation) : Json := .string r.symbol

def ofJson? : Json → Option Relation := Json.oneOf? all symbol

end Relation

namespace Restriction

def toJson (r : Restriction) : Json := .string r.keyword

def ofJson? : Json → Option Restriction := Json.oneOf? all keyword

end Restriction

namespace Declarations

def toJson (d : Declarations) : Json :=
  .array (d.entries.map fun e => .array [.string e.1, e.2.toJson])

def ofJson? (j : Json) : Option Declarations :=
  (Json.listOf? (Json.pairOf? Json.string? Restriction.ofJson?) j).map .mk

end Declarations

namespace Objective

def fields : List String := ["minmax", "variable", "expression"]

def toJson (o : Objective) : Json :=
  .object [("minmax", o.direction.toJson), ("variable", .string o.goal),
    ("expression", o.expression.toJson)]

def ofJson? (j : Json) : Option Objective := do
  match ← j.record? fields with
  | [direction, goal, expression] =>
    some ⟨← Direction.ofJson? direction, ← goal.string?, ← LinearForm.ofJson? expression⟩
  | _ => none

end Objective

namespace Constraint

def fields : List String := ["expression", "relation", "rhs"]

def toJson (c : Constraint) : Json :=
  .object [("expression", c.expression.toJson), ("relation", c.relation.toJson),
    ("rhs", .ofRational c.rhs)]

def ofJson? (j : Json) : Option Constraint := do
  match ← j.record? fields with
  | [expression, relation, rhs] =>
    some ⟨← LinearForm.ofJson? expression, ← Relation.ofJson? relation, ← rhs.rational?⟩
  | _ => none

end Constraint

namespace Program

def fields : List String := ["objective", "constraints", "variables"]

def toJson (p : Program) : Json :=
  .object [("objective", p.objective.toJson),
    ("constraints", .array (p.constraints.map Constraint.toJson)),
    ("variables", p.declarations.toJson)]

def ofJson? (j : Json) : Option Program := do
  match ← j.record? fields with
  | [objective, constraints, declarations] =>
    some ⟨← Objective.ofJson? objective, ← Json.listOf? Constraint.ofJson? constraints,
      ← Declarations.ofJson? declarations⟩
  | _ => none

end Program

end ExactSimplex
