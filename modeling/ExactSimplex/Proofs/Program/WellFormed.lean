import ExactSimplex.Program.Basic
import ExactSimplex.Proofs.LinearForm.Value

/-! Well-formed programs: a finite check, and what follows from it. The expressions name
declared variables only, so their values depend on nothing else; a program of which this much is
known is scoped. -/

namespace ExactSimplex.Program

variable {p : Program} {e : LinearForm} {name : String} {v w : String → Rat}

theorem mem_usedVariables_iff :
    name ∈ p.usedVariables ↔ name ∈ p.objective.expression.names ∨
      ∃ c ∈ p.constraints, name ∈ c.expression.names := by
  simp [mem_usedVariables, expressions]

theorem expression_mem {c : Constraint} (hc : c ∈ p.constraints) :
    c.expression ∈ p.expressions := List.mem_cons_of_mem _ (List.mem_map_of_mem hc)

theorem wellFormed_iff :
    p.WellFormed ↔ p.variableNames.Nodup ∧ (∀ e ∈ p.expressions, e.Reduced) ∧
      (p.usedVariables ⊆ p.variableNames ∧ p.variableNames ⊆ p.usedVariables) ∧
      p.objective.goal ∉ p.variableNames := by
  constructor
  · intro h
    exact ⟨h.distinct, h.reduced, ⟨fun n => (h.declared n).mp, fun n => (h.declared n).mpr⟩,
      h.objectiveFree⟩
  · rintro ⟨hd, hr, ⟨hsub, hsup⟩, hg⟩
    exact ⟨hd, hr, fun n => ⟨fun h => hsub h, fun h => hsup h⟩, hg⟩

instance (p : Program) : Decidable p.WellFormed := decidable_of_iff' _ wellFormed_iff

/-- No variable is declared twice, and the expressions name declared variables only. -/
structure Scoped (p : Program) : Prop where
  distinct : p.variableNames.Nodup
  names_mem : ∀ e ∈ p.expressions, ∀ name ∈ e.names, name ∈ p.variableNames

namespace WellFormed

theorem names_mem (hw : p.WellFormed) (he : e ∈ p.expressions) (hn : name ∈ e.names) :
    name ∈ p.variableNames :=
  (hw.declared name).mp (mem_usedVariables.mpr ⟨e, he, hn⟩)

theorem toScoped (hw : p.WellFormed) : p.Scoped := ⟨hw.distinct, fun _ he _ => hw.names_mem he⟩

theorem constraint_names_mem (hw : p.WellFormed) {c : Constraint} (hc : c ∈ p.constraints)
    (hn : name ∈ c.expression.names) : name ∈ p.variableNames :=
  hw.names_mem (expression_mem hc) hn

/-- Values that agree on the declared variables give the constraints the same values. -/
theorem eval_congr (hw : p.WellFormed) (h : ∀ n ∈ p.variableNames, w n = v n) {c : Constraint}
    (hc : c ∈ p.constraints) : c.expression.eval w = c.expression.eval v :=
  LinearForm.eval_congr fun n hn => h n (hw.constraint_names_mem hc hn)

theorem objective_eval_congr (hw : p.WellFormed) (h : ∀ n ∈ p.variableNames, w n = v n) :
    p.objective.expression.eval w = p.objective.expression.eval v :=
  LinearForm.eval_congr fun n hn => h n (hw.names_mem (by simp [expressions]) hn)

end WellFormed

end ExactSimplex.Program
