import Mathlib.Algebra.Order.Field.Rat
import ExactSimplex.Trace.State

/-! The mirror image of a program has the opposite objective: a maximum becomes a minimum, and
every coefficient of the objective changes its sign. In a tableau this changes the sign of the
reduced costs and of the right-hand side of row 0, and nothing else; of what is chosen on the way to
a solution nothing changes at all. -/

namespace ExactSimplex

/-! ## Programs -/

/-- The form with the opposite coefficients. -/
def LinearForm.negated (p : LinearForm) : LinearForm :=
  ⟨p.terms.map fun t => (t.1, -t.2), p.sorted.map _ fun _ _ h => h⟩

def Objective.mirror (o : Objective) : Objective :=
  { o with direction := o.direction.opposite, expression := o.expression.negated }

def Program.mirror (p : Program) : Program := { p with objective := p.objective.mirror }

/-! ## States -/

namespace Tableau

/-- The first entry of a row as it is and the opposites of the others. -/
def mirrorCosts : List Rat → List Rat
  | [] => []
  | q :: qs => q :: qs.map (-·)

def mirror (t : Tableau) : Tableau where
  direction := t.direction.opposite
  columns := t.columns
  rows := t.rows.modifyHead mirrorCosts
  objective := t.objective.mirror

end Tableau

def Entering.mirror (e : Entering) : Entering := { e with tableau := e.tableau.mirror }

def Leaving.mirror (l : Leaving) : Leaving := { l with tableau := l.tableau.mirror }

/-- Only what is added to row 0 is the opposite. -/
def RowOperation.mirror : RowOperation → RowOperation
  | .addMultiple 0 factor source => .addMultiple 0 (-factor) source
  | op => op

def Pivoted.mirror (p : Pivoted) : Pivoted :=
  ⟨p.tableau.mirror, p.scaled.mirror, p.operations.map RowOperation.mirror⟩

def Solution.mirror (s : Solution) : Solution := { s with objectiveValue := -s.objectiveValue }

def State.mirror : State → State
  | program p => program p.mirror
  | standardProgram p => standardProgram p.mirror
  | unknownTableau t => unknownTableau t.mirror
  | basicFeasible t => basicFeasible t.mirror
  | entering e => entering e.mirror
  | leaving l => leaving l.mirror
  | pivoted p => pivoted p.mirror
  | optimal t => optimal t.mirror
  | unbounded e => unbounded e.mirror
  | solution s => solution s.mirror

@[simp] theorem State.mirror_kind (state : State) : state.mirror.kind = state.kind := by
  cases state <;> rfl

/-- The second step is the first one in the mirror: it has the same name and the image of the
state, and its finer steps are those of the first one in the mirror. Only its explanation may say
something else. -/
inductive Step.Mirrors : Step → Step → Prop
  | mk {name what how how' : String} {result : State} {substeps substeps' : List Step} :
      List.Forall₂ Step.Mirrors substeps substeps' →
      Step.Mirrors ⟨name, what, how, result, substeps⟩ ⟨name, what, how', result.mirror, substeps'⟩

theorem Step.mirrors_plain {name what how how' : String} {result : State} :
    Step.Mirrors (.plain name what how result) (.plain name what how' result.mirror) := .mk .nil

theorem Step.Mirrors.result {step step' : Step} (h : step.Mirrors step') :
    step'.result = step.result.mirror := by
  cases h
  rfl

/-! ## Forms -/

namespace LinearForm

variable (p : LinearForm) (name : String)

theorem get?_negated : p.negated.get? name = (p.get? name).map (-·) := by
  obtain ⟨ts, hts⟩ := p
  simp only [get?, negated]
  clear hts
  induction ts with
  | nil => rfl
  | cons t ts ih =>
    rw [List.map_cons, lookup_term, lookup_term, ih]
    split <;> rfl

theorem coefficient_negated : p.negated.coefficient name = -p.coefficient name := by
  rw [coefficient, coefficient, get?_negated]
  cases p.get? name <;> simp

theorem dense_negated (order : List String) :
    p.negated.dense order = (p.dense order).map (-·) := by
  simp [dense, coefficient_negated]

theorem eval_negated (v : String → Rat) : p.negated.eval v = -p.eval v := by
  simp only [eval, negated, List.foldr_map]
  induction p.terms with
  | nil => simp
  | cons t ts ih => rw [List.foldr_cons, List.foldr_cons, ih, neg_add, neg_mul]

end LinearForm

end ExactSimplex
