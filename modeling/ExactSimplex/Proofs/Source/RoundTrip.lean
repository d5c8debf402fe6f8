import ExactSimplex.Proofs.Program.Text
import ExactSimplex.Proofs.Source.Acceptance

/-! Reading the text of a program gives the program. Below the objective each line that writes a
constraint gives this constraint, and each line that writes a run of declarations gives the entries
of the run, so that the lines make up the program again. -/

namespace ExactSimplex

namespace Source

variable {order : List String}

/-! ## What written lines give -/

theorem read_constraintLines {cs : List Constraint} (he : ∀ c ∈ cs, c.expression.Legible)
    (ho : order.Nodup) :
    constraintsRead (cs.map fun c => (c.text order).toList) =
        cs.map (fun c => ⟨c, mentions c.expression order⟩) ∧
      entriesRead (cs.map fun c => (c.text order).toList) = [] := by
  induction cs with
  | nil => exact ⟨rfl, rfl⟩
  | cons c cs ih =>
    obtain ⟨hc, he⟩ := List.forall_mem_cons.mp he
    obtain ⟨hfirst, hnone⟩ := read_of_constraint (readConstraint_text hc ho)
    obtain ⟨hlater, hnone'⟩ := ih he
    rw [List.map_cons, constraintsRead_cons, entriesRead_cons, hfirst, hnone, hlater, hnone']
    exact ⟨rfl, rfl⟩

theorem read_runLines {runs : List (List String × Restriction)} (hne : ∀ run ∈ runs, run.1 ≠ [])
    (hnames : ∀ run ∈ runs, ∀ name ∈ run.1, Variable.isName name.toList = true) :
    constraintsRead (runs.map fun run => (Declarations.runText run).toList) = [] ∧
      entriesRead (runs.map fun run => (Declarations.runText run).toList) =
        runs.flatMap fun run => run.1.map fun name => (name, run.2) := by
  induction runs with
  | nil => exact ⟨rfl, rfl⟩
  | cons run runs ih =>
    obtain ⟨hrun, hne⟩ := List.forall_mem_cons.mp hne
    obtain ⟨hrunNames, hnames⟩ := List.forall_mem_cons.mp hnames
    obtain ⟨hnone, hfirst⟩ := read_of_declaration (readDeclaration_text hrun hrunNames)
    obtain ⟨hnone', hlater⟩ := ih hne hnames
    rw [List.map_cons, constraintsRead_cons, entriesRead_cons, hfirst, hnone, hlater, hnone']
    exact ⟨rfl, rfl⟩

end Source

namespace Program

variable {p : Program}

/-- The lines below the objective, with their numbers. -/
def lowerLines (p : Program) : List (List Char × Nat) :=
  (p.constraints.map fun c => (c.text p.variableNames).toList).zipIdx 2 ++
    ((Declarations.runs p.declarations.entries).map fun run =>
      (Declarations.runText run).toList).zipIdx (2 + p.constraints.length)

theorem textLines_zipIdx (p : Program) : (p.textLines.map String.toList).zipIdx 1 =
    ((p.objective.text p.variableNames).toList, 1) :: p.lowerLines := by
  simp [textLines, lowerLines, List.zipIdx_append, Function.comp_def]

theorem Named.mentions_subset (hp : p.Named) {e : LinearForm} (he : e ∈ p.expressions) :
    ∀ name ∈ Source.mentions e p.variableNames, name ∈ p.variableNames := by
  intro name hname
  obtain ⟨t, ht, rfl⟩ := List.mem_map.mp hname
  exact hp.toWellFormed.names_mem he (List.mem_map_of_mem (LinearForm.mem_orderedTerms_iff.mp ht))

theorem Named.legible (hp : p.Named) {e : LinearForm} (he : e ∈ p.expressions)
    (hne : e ≠ .empty) : e.Legible := ⟨hp.reduced e he, hne, hp.expression_names he⟩

theorem lowerLines_map_fst (p : Program) : p.lowerLines.map (·.1) =
    p.constraints.map (fun c => (c.text p.variableNames).toList) ++
      (Declarations.runs p.declarations.entries).map fun run =>
        (Declarations.runText run).toList := by
  simp only [lowerLines, List.map_append, List.zipIdx_map_fst]

theorem Named.shownLines_text (hp : p.Named) : Source.shownLines p.text.toList =
    (p.objective.text p.variableNames).toList :: p.lowerLines.map (·.1) := by
  rw [← Source.numberedLines_map_fst, hp.numberedLines_text, textLines_zipIdx, List.map_cons]

section

variable (hp : p.Named) (hne : ∀ c ∈ p.constraints, c.expression ≠ .empty)

include hp

theorem Named.readDeclaration_run {run : List String × Restriction}
    (hrun : run ∈ Declarations.runs p.declarations.entries) :
    Source.readDeclaration (Declarations.runText run).toList =
      .ok (run.1.map fun name => (name, run.2)) :=
  Source.readDeclaration_text (Declarations.runs_ne_nil run hrun) fun _ hname =>
    hp.names _ (Declarations.mem_names_of_runs hrun hname)

include hne

/-- The lower lines are constraints and declarations when none of their expressions is empty. -/
theorem Named.lowerLines_kinds : ∀ line ∈ p.lowerLines.map (·.1),
    Source.IsConstraint line ∨ Source.IsDeclaration line := by
  intro line hline
  rw [lowerLines_map_fst] at hline
  rcases List.mem_append.mp hline with hline | hline
  · obtain ⟨c, hc, rfl⟩ := List.mem_map.mp hline
    have hlegible := hp.legible (expression_mem hc) (hne c hc)
    exact .inl ⟨_, Source.readConstraint_text hlegible hp.distinct⟩
  · obtain ⟨run, hrun, rfl⟩ := List.mem_map.mp hline
    exact .inr ⟨_, hp.readDeclaration_run hrun⟩

/-- What the lower lines give when none of their expressions is empty. -/
theorem Named.read_lowerLines :
    Source.constraintsRead (p.lowerLines.map (·.1)) =
        p.constraints.map (fun c => ⟨c, Source.mentions c.expression p.variableNames⟩) ∧
      Source.entriesRead (p.lowerLines.map (·.1)) = p.declarations.entries := by
  obtain ⟨hconstraints, hnone⟩ := Source.read_constraintLines
    (fun c hc => hp.legible (expression_mem hc) (hne c hc)) hp.distinct
  obtain ⟨hnone', hentries⟩ := Source.read_runLines Declarations.runs_ne_nil
    fun run hrun name hname => hp.names name (Declarations.mem_names_of_runs hrun hname)
  rw [lowerLines_map_fst, Source.constraintsRead_append, Source.entriesRead_append, hconstraints,
    hnone, hnone', hentries, Declarations.runs_flatMap]
  simp

end

/-- The text of a program without empty expressions is read back as the program. -/
theorem Named.reads_back (hp : p.Named) (hne : ∀ e ∈ p.expressions, e ≠ .empty) :
    Source.readProgram p.text = .ok p := by
  obtain ⟨hobjective, hconstraints⟩ := List.forall_mem_cons.mp hne
  have hconstraints : ∀ c ∈ p.constraints, c.expression ≠ .empty := fun c hc =>
    hconstraints _ (List.mem_map_of_mem hc)
  have hfirst := Source.readObjective_text hp.goal (hp.legible List.mem_cons_self hobjective)
    hp.distinct
  obtain ⟨hread, hentries⟩ := hp.read_lowerLines hconstraints
  have hassembled : Source.assembled ⟨p.objective,
      Source.mentions p.objective.expression p.variableNames⟩ (p.lowerLines.map (·.1)) = p := by
    simp [Source.assembled, hread, hentries, Function.comp_def]
  have hmentioned : ∀ name ∈ Source.mentions p.objective.expression p.variableNames ++
      (Source.constraintsRead (p.lowerLines.map (·.1))).flatMap (·.mentioned),
      name ∈ p.variableNames := by
    intro name hname
    rw [hread, List.flatMap_map] at hname
    rcases List.mem_append.mp hname with hname | hname
    · exact hp.mentions_subset List.mem_cons_self name hname
    · obtain ⟨c, hc, hname⟩ := List.mem_flatMap.mp hname
      exact hp.mentions_subset (expression_mem hc) name hname
  have hfit := (Source.acceptable_iff hfirst).mpr ⟨hp.lowerLines_kinds hconstraints,
    hentries ▸ hp.distinct, by
      rw [hassembled]
      exact Source.variableFault?_eq_none.mpr
        ⟨fun hgoal => hp.objectiveFree (hmentioned _ hgoal), hp.objectiveFree, hp.declared⟩⟩
  exact Source.readProgramFrom_eq_ok.mpr
    ⟨_, _, _, hp.shownLines_text, hfirst, hfit, hassembled.symm⟩

/-- Reading the text of a program gives the program: any fractions, relations and restrictions,
as long as no expression is empty or stores a zero, the declared names are distinct names of
variables and are exactly those that are used, and the objective's variable is another name. -/
theorem readProgram_text (hexpressions : ∀ e ∈ p.expressions, e ≠ .empty ∧ e.Reduced)
    (hdistinct : p.variableNames.Nodup)
    (hnames : ∀ name ∈ p.variableNames, Variable.isName name.toList = true)
    (hused : ∀ name, name ∈ p.usedVariables ↔ name ∈ p.variableNames)
    (hgoal : Variable.isName p.objective.goal.toList = true)
    (hfree : p.objective.goal ∉ p.usedVariables ∧ p.objective.goal ∉ p.variableNames) :
    Source.readProgram p.text = .ok p := by
  have hnamed : p.Named :=
    { distinct := hdistinct
      reduced := fun e he => (hexpressions e he).2
      declared := hused
      objectiveFree := hfree.2
      goal := hgoal
      names := hnames }
  exact hnamed.reads_back fun e he => (hexpressions e he).1

/-- A program with all relations, three runs of declarations and coefficients of every kind. -/
def assorted : Program where
  objective := ⟨.min, "w", .ofTerms [("x1", -1), ("x2", 3 / 2), ("y", -7)]⟩
  constraints := [
    ⟨.ofTerms [("x1", 1), ("x10", -1 / 3)], .less, -5 / 4⟩,
    ⟨.ofTerms [("y", -12), ("x2", -1)], .atMost, 0⟩,
    ⟨.ofTerms [("x10", 2)], .equal, 7⟩,
    ⟨.ofTerms [("x2", 1), ("x1", 100)], .atLeast, 1 / 2⟩,
    ⟨.ofTerms [("y", 1)], .greater, -3⟩]
  declarations := ⟨[("y", .unrestricted), ("x2", .nonNegative), ("x1", .nonNegative),
    ("x10", .unrestricted)]⟩

theorem readProgram_text_assorted : Source.readProgram assorted.text = .ok assorted := by
  have hw : assorted.WellFormed := by decide +kernel
  exact readProgram_text (by decide +kernel) hw.distinct (by decide +kernel) hw.declared
    (by decide +kernel) (by decide +kernel)

example : assorted.text = "min w = -7y + 3/2x2 - x1\nx1 - 1/3x10 < -5/4\n-12y - x2 <= 0\n" ++
    "2x10 = 7\nx2 + 100x1 >= 1/2\ny > -3\ny unrestricted\nx2, x1 non-negative\n" ++
    "x10 unrestricted" := by decide +kernel

end Program

end ExactSimplex
