import ExactSimplex.Proofs.Program.Text
import ExactSimplex.Proofs.Source.Acceptance

/-! What is read is well formed. The grammar has names where a rule expects them, expressions are
collected from their terms without zeros, and the lines of a program fit together. -/

namespace ExactSimplex.Source

variable {ts : List Token} {lines : List (List Char)}

theorem WritesObjective.isName_goal {d : Direction} {goal : String} {terms : List (String × Rat)}
    (h : WritesObjective ts d goal terms) : Variable.isName goal.toList = true := by
  cases h with
  | mk _ hgoal _ _ => exact hgoal.2

theorem WritesNames.isName {names : List String} (h : WritesNames ts names) :
    ∀ name ∈ names, Variable.isName name.toList = true := by
  induction h with
  | last ht => exact List.forall_mem_singleton.mpr ht.2
  | more ht _ _ ih => exact List.forall_mem_cons.mpr ⟨ht.2, ih⟩

theorem WritesDeclaration.isName {entries : List (String × Restriction)}
    (h : WritesDeclaration ts entries) :
    ∀ entry ∈ entries, Variable.isName entry.1.toList = true := by
  cases h with
  | mk hnames _ => simpa using hnames.isName

theorem reduced_of_mem_constraintsRead {c : Mentioning Constraint}
    (h : c ∈ constraintsRead lines) : c.value.expression.Reduced := by
  obtain ⟨line, -, hread⟩ := mem_constraintsRead.mp h
  obtain ⟨terms, -, hcollects, -⟩ := readConstraint_eq_ok.mp hread
  exact hcollects.reduced

theorem isName_of_mem_entriesRead {entry : String × Restriction} (h : entry ∈ entriesRead lines) :
    Variable.isName entry.1.toList = true := by
  obtain ⟨line, -, entries, hread, hentry⟩ := mem_entriesRead.mp h
  exact (readDeclaration_eq_ok.mp hread).isName entry hentry

/-- A program that is read is well formed, and its names are names of variables. -/
theorem named_of_readProgram {s : String} {p : Program} (h : readProgram s = .ok p) :
    p.Named := by
  obtain ⟨first, rest, o, -, ho, hfit, rfl⟩ := readProgramFrom_eq_ok.mp h
  obtain ⟨terms, hwrites, hcollects, -⟩ := readObjective_eq_ok.mp ho
  exact
    { distinct := hfit.distinct
      reduced := List.forall_mem_cons.mpr ⟨hcollects.reduced, by
        simpa [assembled] using fun _ => reduced_of_mem_constraintsRead⟩
      declared := fun name => (mem_used ho).trans (hfit.used name)
      objectiveFree := hfit.undeclared
      goal := hwrites.isName_goal
      names := List.forall_mem_map.mpr fun _ => isName_of_mem_entriesRead }

end ExactSimplex.Source
