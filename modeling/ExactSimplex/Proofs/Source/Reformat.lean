import ExactSimplex.Proofs.Source.RoundTrip
import ExactSimplex.Proofs.Source.Sound

/-! Writing a program that was read and reading it again. The text is read back unless some
expression of the program is empty: terms with a zero coefficient are dropped when they are
read, and an expression that has lost all its terms is written as a zero, which no rule reads. -/

namespace ExactSimplex

namespace Source

variable {s : String} {p : Program}

/-- A program with an empty expression cannot be read from its text. -/
theorem expressions_nonempty_of_reads_back {p q : Program} (hp : p.Named)
    (h : readProgram p.text = .ok q) : ∀ e ∈ p.expressions, e ≠ .empty := by
  obtain ⟨first, rest, o, hlines, hobjective, hfit, -⟩ := readProgramFrom_eq_ok.mp h
  rw [hp.shownLines_text] at hlines
  obtain ⟨rfl, rfl⟩ := List.cons.inj hlines
  refine List.forall_mem_cons.mpr ⟨fun he => ?_, ?_⟩
  · rw [readObjective_empty hp.goal he] at hobjective
    cases hobjective
  · intro e he hempty
    obtain ⟨c, hc, rfl⟩ := List.mem_map.mp he
    have hline : (c.text p.variableNames).toList ∈ p.lowerLines.map (·.1) := by
      rw [Program.lowerLines_map_fst]
      exact List.mem_append_left _ (List.mem_map_of_mem hc)
    rcases hfit.kinds _ hline with ⟨given, hread⟩ | ⟨entries, hread⟩
    · rw [readConstraint_empty hempty p.variableNames] at hread
      cases hread
    · obtain ⟨f, herror⟩ := readDeclaration_empty hempty p.variableNames
      rw [hread] at herror
      cases herror

/-- What the text of a program that was read is read as: the program and nothing else, if none
of its expressions is empty, and otherwise nothing at all. -/
theorem readProgram_text_iff (h : readProgram s = .ok p) (q : Program) :
    readProgram p.text = .ok q ↔ q = p ∧ ∀ e ∈ p.expressions, e ≠ .empty := by
  have hp := named_of_readProgram h
  constructor
  · intro hq
    have hne := expressions_nonempty_of_reads_back hp hq
    exact ⟨Except.ok.inj (hq.symm.trans (hp.reads_back hne)), hne⟩
  · rintro ⟨rfl, hne⟩
    exact hp.reads_back hne

/-- The objective loses one of its two terms. -/
def partlyLost : String := "max z = 0x1 + x2\nx2 <= 3\nx2 non-negative"

def kept : Program :=
  ⟨⟨.max, "z", .ofTerms [("x2", 1)]⟩, [⟨.ofTerms [("x2", 1)], .atMost, 3⟩],
    ⟨[("x2", .nonNegative)]⟩⟩

theorem readProgram_text_iff_kept :
    readProgram partlyLost = .ok kept ∧ readProgram kept.text = .ok kept := by
  have h : readProgram partlyLost = .ok kept := by decide +kernel
  exact ⟨h, (readProgram_text_iff h kept).mpr ⟨rfl, by decide +kernel⟩⟩

/-- The objective loses its only term. -/
def whollyLost : String := "max z = 0x1\nx2 <= 3\nx2 non-negative"

/-- The text of a program that was read is refused. -/
theorem not_reads_back_whollyLost : ∃ p, readProgram whollyLost = .ok p ∧
    readProgram p.text = .error ⟨some 1, .malformedTerm "end of line"⟩ :=
  ⟨⟨⟨.max, "z", .empty⟩, [⟨.ofTerms [("x2", 1)], .atMost, 3⟩], ⟨[("x2", .nonNegative)]⟩⟩,
    by decide +kernel, by decide +kernel⟩

end Source

end ExactSimplex
