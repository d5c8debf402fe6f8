import ExactSimplex.Program.Text
import ExactSimplex.Proofs.LinearForm.Terms
import ExactSimplex.Proofs.Program.WellFormed
import ExactSimplex.Proofs.Rational.Text
import ExactSimplex.Proofs.Text.Line
import ExactSimplex.Source.Reader
import ExactSimplex.Variable

/-! The lines of a program's text. Where the names are names of variables no line is blank and
none contains a line break, so the text comes apart into the lines that it was put together
from, numbered from 1. -/

namespace ExactSimplex

open Text

/-! ## Pieces of lines -/

theorem unbroken_of_isAlphanum {cs : List Char} (h : ∀ c ∈ cs, c.isAlphanum = true) :
    Unbroken cs :=
  ⟨fun hn => absurd (h _ hn) (by decide), fun hr => absurd (h _ hr) (by decide)⟩

theorem Variable.isName_unbroken {cs : List Char} (h : isName cs = true) : Unbroken cs := by
  refine unbroken_of_isAlphanum fun c hc => ?_
  cases cs with
  | nil => cases hc
  | cons d ds =>
    simp only [isName, Bool.and_eq_true, List.all_eq_true] at h
    rcases List.mem_cons.mp hc with rfl | hc
    · exact isAlphanum_of_isAlpha h.1
    · exact isAlphanum_of_isDigit (h.2 c hc)

namespace Rational

theorem magnitude_unbroken (q : Rat) : Unbroken (magnitude q) := by
  have hdigits : ∀ n, Unbroken (Nat.toDigits 10 n) := fun n =>
    unbroken_of_isAlphanum fun c hc => isAlphanum_of_isDigit (isDigit_of_mem_digits hc)
  by_cases hd : q.den = 1 <;> simp [magnitude, hd, hdigits]

theorem text_unbroken (q : Rat) : Unbroken (text q).toList := by
  rw [text_toList]
  by_cases hq : q < 0 <;> simp [minusIf, hq, magnitude_unbroken]

theorem termText_unbroken (q : Rat) : Unbroken (termText q).toList := by
  rw [termText]
  split
  · simp
  · split
    · simp
    · exact text_unbroken q

end Rational

namespace LinearForm

theorem laterTermText_unbroken {t : String × Rat} (h : Variable.isName t.1.toList = true) :
    Unbroken (laterTermText t).toList := by
  by_cases hq : t.2 < 0 <;>
    simp [laterTermText, hq, Rational.termText_unbroken, Variable.isName_unbroken h]

theorem termsText_unbroken {ts : List (String × Rat)}
    (h : ∀ t ∈ ts, Variable.isName t.1.toList = true) : Unbroken (termsText ts).toList := by
  cases ts with
  | nil => simp [termsText]
  | cons t ts =>
    have ht := Variable.isName_unbroken (h t List.mem_cons_self)
    have hlater : Unbroken (ts.flatMap fun t => (laterTermText t).toList) :=
      unbroken_flatMap fun u hu => laterTermText_unbroken (h u (List.mem_cons_of_mem _ hu))
    simpa [termsText, firstTermText, Rational.termText_unbroken, ht, String.toList_join,
      List.flatMap_map] using hlater

theorem text_unbroken {e : LinearForm} (order : List String)
    (h : ∀ name ∈ e.names, Variable.isName name.toList = true) :
    Unbroken (e.text order).toList :=
  termsText_unbroken fun _ ht => h _ (List.mem_map_of_mem (mem_orderedTerms_iff.mp ht))

end LinearForm

/-! ## Runs of declarations -/

namespace Declarations

theorem runs_ne_nil {entries : List (String × Restriction)} :
    ∀ run ∈ runs entries, run.1 ≠ [] := by
  induction entries with
  | nil => simp [runs]
  | cons e rest ih =>
    obtain ⟨name, r⟩ := e
    cases h : runs rest with
    | nil => simp [runs, h]
    | cons run more =>
      obtain ⟨names, s⟩ := run
      rw [h] at ih
      obtain ⟨-, hmore⟩ := List.forall_mem_cons.mp ih
      by_cases hr : r = s
      · simp only [runs, h, if_pos hr]
        exact List.forall_mem_cons.mpr ⟨List.cons_ne_nil _ _, hmore⟩
      · simp only [runs, h, if_neg hr]
        exact List.forall_mem_cons.mpr ⟨List.cons_ne_nil _ _, ih⟩

theorem mem_names_of_runs {d : Declarations} {run : List String × Restriction} {name : String}
    (hrun : run ∈ runs d.entries) (hname : name ∈ run.1) : name ∈ d.names := by
  rw [names, ← runs_flatMap d.entries]
  simp only [List.mem_map, List.mem_flatMap]
  exact ⟨_, ⟨run, hrun, name, hname, rfl⟩, rfl⟩

theorem joined_unbroken {names : List String}
    (h : ∀ name ∈ names, Variable.isName name.toList = true) :
    Unbroken (", ".intercalate names).toList := by
  induction names with
  | nil => simp
  | cons name names ih =>
    have hname := Variable.isName_unbroken (h name List.mem_cons_self)
    have hnames := ih fun n hn => h n (List.mem_cons_of_mem _ hn)
    cases names with
    | nil => simpa [String.toList_intercalate] using hname
    | cons next more => simp_all [String.toList_intercalate]

end Declarations

/-! ## Lines -/

theorem Direction.word_shown (d : Direction) : Shown d.word.toList := by
  cases d <;> decide

theorem Relation.symbol_shown (r : Relation) : Shown r.symbol.toList := by
  cases r <;> decide

theorem Restriction.keyword_shown (r : Restriction) : Shown r.keyword.toList := by
  cases r <;> decide

theorem Objective.text_shown {o : Objective} (order : List String)
    (hgoal : Variable.isName o.goal.toList = true)
    (hnames : ∀ name ∈ o.expression.names, Variable.isName name.toList = true) :
    Shown (o.text order).toList := by
  have hafter : Unbroken (' ' :: (o.goal.toList ++ ' ' :: '=' :: ' ' ::
      (o.expression.text order).toList)) := by
    simp [Variable.isName_unbroken hgoal, LinearForm.text_unbroken order hnames]
  simpa [Objective.text] using shown_around unbroken_nil o.direction.word_shown hafter

theorem Constraint.text_shown {c : Constraint} (order : List String)
    (hnames : ∀ name ∈ c.expression.names, Variable.isName name.toList = true) :
    Shown (c.text order).toList := by
  have hbefore : Unbroken ((c.expression.text order).toList ++ [' ']) := by
    simp [LinearForm.text_unbroken order hnames]
  have hafter : Unbroken (' ' :: (Rational.text c.rhs).toList) := by
    simp [Rational.text_unbroken]
  simpa [Constraint.text] using shown_around hbefore c.relation.symbol_shown hafter

theorem Declarations.runText_shown {run : List String × Restriction}
    (hnames : ∀ name ∈ run.1, Variable.isName name.toList = true) :
    Shown (runText run).toList := by
  have hbefore : Unbroken ((", ".intercalate run.1).toList ++ [' ']) := by
    rw [unbroken_append]
    exact ⟨joined_unbroken hnames, by simp⟩
  simpa [runText] using shown_around hbefore run.2.keyword_shown unbroken_nil

namespace Program

/-- A well-formed program whose names are names of variables. -/
structure Named (p : Program) : Prop extends p.WellFormed where
  goal : Variable.isName p.objective.goal.toList = true
  names : ∀ name ∈ p.variableNames, Variable.isName name.toList = true

variable {p : Program}

theorem Named.expression_names (hp : p.Named) {e : LinearForm} (he : e ∈ p.expressions) :
    ∀ name ∈ e.names, Variable.isName name.toList = true :=
  fun _ hn => hp.names _ (hp.toWellFormed.names_mem he hn)

theorem Named.textLines_shown (hp : p.Named) : ∀ line ∈ p.textLines, Shown line.toList := by
  intro line hline
  simp only [textLines, List.mem_append, List.mem_cons, List.mem_map] at hline
  rcases hline with (rfl | ⟨c, hc, rfl⟩) | ⟨run, hrun, rfl⟩
  · exact Objective.text_shown _ hp.goal (hp.expression_names List.mem_cons_self)
  · exact Constraint.text_shown _ (hp.expression_names (expression_mem hc))
  · exact Declarations.runText_shown fun name hname =>
      hp.names name (Declarations.mem_names_of_runs hrun hname)

/-- The text of a program comes apart into its lines, numbered from 1. -/
theorem Named.numberedLines_text (hp : p.Named) :
    Source.numberedLines p.text.toList = (p.textLines.map String.toList).zipIdx 1 := by
  have hshown : ∀ line ∈ p.textLines.map String.toList, Shown line := by
    simpa using hp.textLines_shown
  have htext : p.text.toList = ['\n'].intercalate (p.textLines.map String.toList) := by
    simp [text, String.toList_intercalate]
  rw [Source.numberedLines, htext, lines_intercalate hshown]
  refine List.filter_eq_self.mpr fun line hline => ?_
  simp [(hshown _ (List.fst_mem_of_mem_zipIdx hline)).2]

end Program

end ExactSimplex
