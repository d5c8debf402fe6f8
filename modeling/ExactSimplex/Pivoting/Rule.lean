/-! Two rules for choosing pivots when several variables or rows qualify. -/

namespace ExactSimplex

inductive PivotRule where
  /-- The largest improving reduced cost enters and the first of tied rows leaves. -/
  | dantzig
  /-- The first improving column enters; of tied rows the one whose basic variable stands
  first leaves. -/
  | bland
  deriving DecidableEq, Repr

namespace PivotRule

def word : PivotRule → String
  | dantzig => "dantzig"
  | bland => "bland"

def all : List PivotRule := [dantzig, bland]

end PivotRule

end ExactSimplex
