import ExactSimplex.Json.Program
import ExactSimplex.Pivoting.Exchange
import ExactSimplex.Solution.Basic

/-! Tableaux, pivots and solutions as JSON. -/

namespace ExactSimplex

namespace Tableau

def fields : List String := ["minmax", "variables", "rows", "objective"]

def toJson (t : Tableau) : Json :=
  .object [("minmax", t.direction.toJson), ("variables", .strings t.columns),
    ("rows", .array (t.rows.map fun row => .array (row.map .ofRational))),
    ("objective", t.objective.toJson)]

def ofJson? (j : Json) : Option Tableau := do
  match ← j.record? fields with
  | [direction, columns, rows, objective] =>
    some ⟨← Direction.ofJson? direction, ← Json.listOf? Json.string? columns,
      ← Json.listOf? (Json.listOf? Json.rational?) rows, ← Objective.ofJson? objective⟩
  | _ => none

end Tableau

namespace Ratio

def toJson : Ratio → Json
  | finite q => .object [("Finite", .ofRational q)]
  | infinite => .string "Infinite"

def ofJson? (j : Json) : Option Ratio := do
  match ← j.case? with
  | ("Finite", some q) => (q.rational?).map finite
  | ("Infinite", none) => some infinite
  | ("Infinite", some .null) => some infinite
  | _ => none

end Ratio

namespace RowOperation

def scaleFields : List String := ["row", "factor"]

def addMultipleFields : List String := ["row", "factor", "source"]

def toJson : RowOperation → Json
  | scale row factor =>
    .object [("Scale", .object [("row", .nat row), ("factor", .ofRational factor)])]
  | addMultiple row factor source =>
    .object [("AddMultiple",
      .object [("row", .nat row), ("factor", .ofRational factor), ("source", .nat source)])]

def ofJson? (j : Json) : Option RowOperation := do
  match ← j.case? with
  | ("Scale", some v) =>
    match ← v.fields? scaleFields with
    | [row, factor] => some (scale (← row.nat?) (← factor.rational?))
    | _ => none
  | ("AddMultiple", some v) =>
    match ← v.fields? addMultipleFields with
    | [row, factor, source] =>
      some (addMultiple (← row.nat?) (← factor.rational?) (← source.nat?))
    | _ => none
  | _ => none

end RowOperation

namespace Entering

def fields : List String := ["tableau", "entering_var"]

def toJson (e : Entering) : Json :=
  .object [("tableau", e.tableau.toJson), ("entering_var", .string e.name)]

def ofJson? (j : Json) : Option Entering := do
  match ← j.record? fields with
  | [tableau, name] => some ⟨← Tableau.ofJson? tableau, ← name.string?⟩
  | _ => none

end Entering

namespace Leaving

def fields : List String := ["tableau", "entering_var", "leaving_var", "leaving_row", "ratios"]

def toJson (l : Leaving) : Json :=
  .object [("tableau", l.tableau.toJson), ("entering_var", .string l.entering),
    ("leaving_var", .string l.leaving), ("leaving_row", .nat l.row),
    ("ratios", .array (l.ratios.map Ratio.toJson))]

def ofJson? (j : Json) : Option Leaving := do
  match ← j.record? fields with
  | [tableau, entering, leaving, row, ratios] =>
    some ⟨← Tableau.ofJson? tableau, ← entering.string?, ← leaving.string?, ← row.nat?,
      ← Json.listOf? Ratio.ofJson? ratios⟩
  | _ => none

end Leaving

namespace Pivoted

def fields : List String := ["tableau", "scaled", "operations"]

def toJson (p : Pivoted) : Json :=
  .object [("tableau", p.tableau.toJson), ("scaled", p.scaled.toJson),
    ("operations", .array (p.operations.map RowOperation.toJson))]

def ofJson? (j : Json) : Option Pivoted := do
  match ← j.record? fields with
  | [tableau, scaled, operations] =>
    some ⟨← Tableau.ofJson? tableau, ← Tableau.ofJson? scaled,
      ← Json.listOf? RowOperation.ofJson? operations⟩
  | _ => none

end Pivoted

namespace Solution

def fields : List String := ["objective_var", "objective_value", "values", "basis"]

def toJson (s : Solution) : Json :=
  .object [("objective_var", .string s.goal), ("objective_value", .ofRational s.objectiveValue),
    ("values", .array (s.values.map fun v => .array [.string v.1, .ofRational v.2])),
    ("basis", .strings s.basis)]

def ofJson? (j : Json) : Option Solution := do
  match ← j.record? fields with
  | [goal, objectiveValue, values, basis] =>
    some ⟨← goal.string?, ← objectiveValue.rational?,
      ← Json.listOf? (Json.pairOf? Json.string? Json.rational?) values,
      ← Json.listOf? Json.string? basis⟩
  | _ => none

end Solution

end ExactSimplex
