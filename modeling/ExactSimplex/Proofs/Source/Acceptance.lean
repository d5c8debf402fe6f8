import ExactSimplex.Proofs.Program.WellFormed
import ExactSimplex.Proofs.Source.Forms

/-! Which texts are programs. Every line below the objective is a constraint or a declaration and
never both, so that trying the one before the other loses nothing; what the lines give together is
what each of them gives, in their order, and the last check is about their terms. -/

namespace ExactSimplex.Source

variable {line : List Char} {lines : List (List Char)} {name : String}

/-- The lines that are not blank. -/
def shownLines (text : List Char) : List (List Char) :=
  (Text.lines text).filter fun line => !line.all Text.isBlank

theorem numberedLines_map_fst (text : List Char) :
    (numberedLines text).map (·.1) = shownLines text := by
  rw [numberedLines, shownLines, ← List.zipIdx_map_fst 1 (Text.lines text), List.filter_map]
  simp [Function.comp_def]

/-! ## Constraints and declarations -/

def IsConstraint (line : List Char) : Prop := ∃ c, readConstraint line = .ok c

def IsDeclaration (line : List Char) : Prop := ∃ entries, readDeclaration line = .ok entries

theorem WritesNames.exists_first {ts : List Token} {names : List String}
    (h : WritesNames ts names) :
    ∃ t more, ts = t :: more ∧ t.IsName ∧ ∀ u ∈ more.head?, u.kind = .comma := by
  cases h with
  | last ht => exact ⟨_, [], rfl, ht, by simp⟩
  | more ht hcomma => exact ⟨_, _, rfl, ht, by simpa using hcomma⟩

/-- The first name of a declaration is an expression, and no relation follows. -/
theorem WritesDeclaration.constraint_error {ts : List Token}
    {entries : List (String × Restriction)} (h : WritesDeclaration ts entries)
    (rest : List Token) :
    ∃ us, constraint (ts ++ rest) = .error (unexpected "relation" us) := by
  cases h with
  | @mk ts word names r hnames hword =>
    obtain ⟨t, more, rfl, ht, hmore⟩ := hnames.exists_first
    obtain ⟨u, us, hus, hkind⟩ : ∃ u us, more ++ word :: rest = u :: us ∧
        (u.kind = .comma ∨ u.kind = restrictionKind r) := by
      cases more with
      | nil => exact ⟨word, rest, rfl, .inr hword⟩
      | cons u us => exact ⟨u, us ++ word :: rest, rfl, .inl (hmore u (by simp))⟩
    have hwrites : WritesExpression [t] [(t.text, 1)] := .mk (.mk .implicit ht) .none (by simp)
    have hends : NotNext [.plus, .minus] (u :: us) := by
      rcases hkind with hkind | hkind <;> cases r <;> simp [hkind, restrictionKind]
    have hrelation : relation (u :: us) = .error (unexpected "relation" (u :: us)) := by
      rcases hkind with hkind | hkind <;> cases r <;>
        simp [relation, hkind, restrictionKind, TokenKind.relation?]
    have hexpression := recognizes_expression.complete hwrites hends
    refine ⟨u :: us, ?_⟩
    simp only [List.append_assoc, List.cons_append, List.nil_append, hus] at hexpression ⊢
    simp only [constraint, hexpression, bind, Except.bind, hrelation]

theorem unexpected_isShapeMismatch (expected : String) (ts : List Token) :
    (unexpected expected ts).isShapeMismatch = true := by
  cases ts with
  | nil => rfl
  | cons t ts => by_cases h : t.kind = .endOfText <;> simp [unexpected, h, Fault.isShapeMismatch]

/-- A line that is a declaration is refused as a constraint by a fault of shape. -/
theorem readConstraint_of_declaration {entries : List (String × Restriction)}
    (h : readDeclaration line = .ok entries) :
    ∃ f, readConstraint line = .error f ∧ f.isShapeMismatch = true := by
  obtain ⟨us, herror⟩ := (readDeclaration_eq_ok.mp h).constraint_error
    [tokenAt .endOfText (Text.width line) []]
  refine ⟨_, ?_, unexpected_isShapeMismatch "relation" us⟩
  rw [readConstraint, whole, tokens_eq_body, herror]
  rfl

theorem not_isConstraint_and_isDeclaration (line : List Char) :
    ¬ (IsConstraint line ∧ IsDeclaration line) := by
  rintro ⟨⟨c, hc⟩, ⟨entries, he⟩⟩
  obtain ⟨f, hf, -⟩ := readConstraint_of_declaration he
  rw [hc] at hf
  cases hf

/-! ## What the lines give -/

def constraintsRead (lines : List (List Char)) : List (Mentioning Constraint) :=
  lines.flatMap fun line => (readConstraint line).toOption.toList

def entriesRead (lines : List (List Char)) : List (String × Restriction) :=
  lines.flatMap fun line => (readDeclaration line).toOption.getD []

theorem constraintsRead_append (lines more : List (List Char)) :
    constraintsRead (lines ++ more) = constraintsRead lines ++ constraintsRead more :=
  List.flatMap_append

theorem entriesRead_append (lines more : List (List Char)) :
    entriesRead (lines ++ more) = entriesRead lines ++ entriesRead more :=
  List.flatMap_append

theorem constraintsRead_cons (line : List Char) (lines : List (List Char)) :
    constraintsRead (line :: lines) = constraintsRead [line] ++ constraintsRead lines :=
  constraintsRead_append [line] lines

theorem entriesRead_cons (line : List Char) (lines : List (List Char)) :
    entriesRead (line :: lines) = entriesRead [line] ++ entriesRead lines :=
  entriesRead_append [line] lines

theorem read_of_constraint {c : Mentioning Constraint} (h : readConstraint line = .ok c) :
    constraintsRead [line] = [c] ∧ entriesRead [line] = [] := by
  cases he : readDeclaration line with
  | error f => simp [constraintsRead, entriesRead, h, he, Except.toOption]
  | ok entries => exact absurd ⟨⟨c, h⟩, ⟨entries, he⟩⟩ (not_isConstraint_and_isDeclaration line)

theorem read_of_declaration {entries : List (String × Restriction)}
    (h : readDeclaration line = .ok entries) :
    constraintsRead [line] = [] ∧ entriesRead [line] = entries := by
  obtain ⟨f, hf, -⟩ := readConstraint_of_declaration h
  simp [constraintsRead, entriesRead, h, hf, Except.toOption]

theorem mem_constraintsRead {c : Mentioning Constraint} :
    c ∈ constraintsRead lines ↔ ∃ line ∈ lines, readConstraint line = .ok c := by
  simp only [constraintsRead, List.mem_flatMap, Option.mem_toList]
  refine exists_congr fun line => and_congr_right fun _ => ?_
  cases readConstraint line <;> simp [Except.toOption]

theorem mem_entriesRead {entry : String × Restriction} :
    entry ∈ entriesRead lines ↔
      ∃ line ∈ lines, ∃ entries, readDeclaration line = .ok entries ∧ entry ∈ entries := by
  simp only [entriesRead, List.mem_flatMap]
  refine exists_congr fun line => and_congr_right fun _ => ?_
  cases readDeclaration line <;> simp [Except.toOption]

namespace Draft

variable {d e : Draft}

/-- The draft with all that the lines give. -/
def after (d : Draft) (lines : List (List Char)) : Draft :=
  ⟨d.mentioned ++ (constraintsRead lines).flatMap (·.mentioned),
    d.constraints ++ (constraintsRead lines).map (·.value),
    ⟨d.declarations.entries ++ entriesRead lines⟩⟩

@[simp] theorem after_nil (d : Draft) : d.after [] = d := by
  simp [after, constraintsRead, entriesRead]

theorem after_cons (d : Draft) (line : List Char) (lines : List (List Char)) :
    d.after (line :: lines) = (d.after [line]).after lines := by
  simp [after, constraintsRead, entriesRead]

theorem names_after (d : Draft) (lines : List (List Char)) :
    (d.after lines).declarations.names =
      d.declarations.names ++ (entriesRead lines).map (·.1) := by
  simp [after, Declarations.names]

theorem after_empty (lines : List (List Char)) :
    empty.after lines = ⟨(constraintsRead lines).flatMap (·.mentioned),
      (constraintsRead lines).map (·.value), ⟨entriesRead lines⟩⟩ := by
  simp [after, empty, Declarations.empty]

theorem after_constraint {c : Mentioning Constraint} (h : readConstraint line = .ok c) :
    d.after [line] = d.addConstraint c := by
  obtain ⟨hread, hnone⟩ := read_of_constraint h
  simp [after, addConstraint, hread, hnone]

theorem after_declaration {entries : List (String × Restriction)}
    (h : readDeclaration line = .ok entries) :
    d.after [line] = { d with declarations := ⟨d.declarations.entries ++ entries⟩ } := by
  obtain ⟨hnone, hread⟩ := read_of_declaration h
  simp [after, hread, hnone]

/-- Entries are declared if this leaves all names distinct. -/
theorem declareAll_eq_ok (hd : d.declarations.names.Nodup)
    {entries : List (String × Restriction)} :
    d.declareAll entries = .ok e ↔
      (d.declarations.names ++ entries.map (·.1)).Nodup ∧
        e = { d with declarations := ⟨d.declarations.entries ++ entries⟩ } := by
  induction entries generalizing d with
  | nil => simp [declareAll, hd, eq_comm]
  | cons entry entries ih =>
    obtain ⟨name, r⟩ := entry
    rw [declareAll]
    by_cases hname : name ∈ d.declarations.names
    · have hnot : ¬ (d.declarations.names ++ ((name, r) :: entries).map (·.1)).Nodup :=
        fun h => List.disjoint_of_nodup_append h hname (by simp)
      simp only [Declarations.declare?_eq_none.mpr hname, hnot, reduceCtorEq, false_and]
    · have hdeclare := Declarations.declare?_eq_some.mpr
        ⟨hname, (rfl : d.declarations.push name r = d.declarations.push name r)⟩
      simp only [hdeclare]
      rw [ih (Declarations.nodup_of_declare? hd hdeclare), Declarations.names_push]
      simp [Declarations.push]

theorem addLine_eq_ok (hd : d.declarations.names.Nodup) :
    d.addLine line = .ok e ↔ (IsConstraint line ∨ IsDeclaration line) ∧
      (d.after [line]).declarations.names.Nodup ∧ e = d.after [line] := by
  rw [addLine]
  cases hc : readConstraint line with
  | ok c =>
    have hline : IsConstraint line ∨ IsDeclaration line := .inl ⟨c, hc⟩
    have hnames : (d.addConstraint c).declarations.names.Nodup := hd
    simp only [after_constraint hc, hline, hnames, Except.ok.injEq, true_and]
    exact eq_comm
  | error f =>
    cases he : readDeclaration line with
    | ok entries =>
      obtain ⟨g, hg, hshape⟩ := readConstraint_of_declaration he
      obtain rfl := Except.error.inj (hc.symm.trans hg)
      have hline : IsConstraint line ∨ IsDeclaration line := .inr ⟨entries, he⟩
      simp only [hshape, if_true, declareAll_eq_ok hd, after_declaration he, hline, true_and,
        Declarations.names, List.map_append]
    | error g =>
      have hline : ¬ (IsConstraint line ∨ IsDeclaration line) := by
        rintro (⟨c, h⟩ | ⟨entries, h⟩)
        · rw [hc] at h; cases h
        · rw [he] at h; cases h
      simp only [hline, false_and, iff_false]
      split <;> simp

/-- Induction on the lines; every line takes the draft to what it is after the line. -/
theorem addLines_eq_ok (hd : d.declarations.names.Nodup) {lines : List (List Char × Nat)} :
    d.addLines lines = .ok e ↔
      (∀ line ∈ lines.map (·.1), IsConstraint line ∨ IsDeclaration line) ∧
        (d.after (lines.map (·.1))).declarations.names.Nodup ∧
          e = d.after (lines.map (·.1)) := by
  induction lines generalizing d with
  | nil => simp [addLines, hd, eq_comm]
  | cons first lines ih =>
    obtain ⟨line, n⟩ := first
    simp only [addLines, List.map_cons, List.forall_mem_cons]
    rw [after_cons]
    cases hline : d.addLine line with
    | error f =>
      simp only [reduceCtorEq, false_iff]
      rintro ⟨⟨hkind, -⟩, hnames, -⟩
      have hnames' : (d.after [line]).declarations.names.Nodup := by
        rw [names_after] at hnames
        exact hnames.of_append_left
      rw [(addLine_eq_ok hd).mpr ⟨hkind, hnames', rfl⟩] at hline
      cases hline
    | ok next =>
      obtain ⟨hkind, hnames, rfl⟩ := (addLine_eq_ok hd).mp hline
      simp only [ih hnames, hkind, true_and]

end Draft

/-! ## The terms of a text -/

/-- The line writes an objective with these terms. -/
def ObjectiveTerms (line : List Char) (terms : List (String × Rat)) : Prop :=
  ∃ d goal, WritesObjective (body line) d goal terms

/-- The line writes a constraint with these terms. -/
def ConstraintTerms (line : List Char) (terms : List (String × Rat)) : Prop :=
  ∃ r q, WritesConstraint (body line) terms r q

def TermOf (writes : List (String × Rat) → Prop) (t : String × Rat) : Prop :=
  ∃ terms, writes terms ∧ t ∈ terms

/-- A term of one of the expressions, as written: its coefficient can be zero. -/
def ProgramTerm (first : List Char) (rest : List (List Char)) (t : String × Rat) : Prop :=
  TermOf (ObjectiveTerms first) t ∨ ∃ line ∈ rest, TermOf (ConstraintTerms line) t

theorem ObjectiveTerms.read {terms : List (String × Rat)} (h : ObjectiveTerms line terms) :
    ∃ d goal, readObjective line =
      .ok ⟨⟨d, goal, LinearForm.ofTerms terms⟩, terms.map (·.1)⟩ := by
  obtain ⟨d, goal, h⟩ := h
  exact ⟨d, goal, readObjective_eq_ok.mpr ⟨terms, h, LinearForm.collects_ofTerms h.nodup, rfl⟩⟩

theorem ConstraintTerms.read {terms : List (String × Rat)} (h : ConstraintTerms line terms) :
    ∃ r q, readConstraint line =
      .ok ⟨⟨LinearForm.ofTerms terms, r, q⟩, terms.map (·.1)⟩ := by
  obtain ⟨r, q, h⟩ := h
  exact ⟨r, q, readConstraint_eq_ok.mpr ⟨terms, h, LinearForm.collects_ofTerms h.nodup, rfl⟩⟩

/-- What is mentioned are the variables of the terms, and the form has those of the terms that are
not zero. -/
structure Covers (writes : List (String × Rat) → Prop) (mentioned : List String)
    (e : LinearForm) : Prop where
  mentioned : ∀ name, name ∈ mentioned ↔ ∃ q, TermOf writes (name, q)
  names : ∀ name, name ∈ e.names ↔ ∃ q, q ≠ 0 ∧ TermOf writes (name, q)

theorem covers {writes : List (String × Rat) → Prop} {mentioned : List String} {e : LinearForm}
    (hwrites : ∃ terms, writes terms)
    (h : ∀ terms, writes terms → mentioned = terms.map (·.1) ∧ e.Collects terms) :
    Covers writes mentioned e := by
  obtain ⟨terms, hterms⟩ := hwrites
  obtain ⟨hmentioned, hcollects⟩ := h terms hterms
  have hnames : ∀ name, name ∈ e.names ↔ ∃ q, e.get? name = some q := by
    simp [LinearForm.names, LinearForm.get?_eq_some_iff]
  constructor
  · intro name
    constructor
    · intro hname
      obtain ⟨t, ht, rfl⟩ := List.mem_map.mp (hmentioned ▸ hname)
      exact ⟨t.2, terms, hterms, ht⟩
    · rintro ⟨q, ts, hts, hmem⟩
      exact (h ts hts).1 ▸ List.mem_map_of_mem hmem
  · intro name
    constructor
    · intro hname
      obtain ⟨q, hq⟩ := (hnames name).mp hname
      obtain ⟨hmem, hzero⟩ := (hcollects name q).mp hq
      exact ⟨q, hzero, terms, hterms, hmem⟩
    · rintro ⟨q, hzero, ts, hts, hmem⟩
      exact (hnames name).mpr ⟨q, ((h ts hts).2 name q).mpr ⟨hmem, hzero⟩⟩

theorem objective_covers {o : Mentioning Objective} (h : readObjective line = .ok o) :
    Covers (ObjectiveTerms line) o.mentioned o.value.expression := by
  obtain ⟨terms, hwrites, -, -⟩ := readObjective_eq_ok.mp h
  refine covers ⟨terms, _, _, hwrites⟩ fun ts ⟨d, goal, hts⟩ => ?_
  obtain ⟨d, goal, hread⟩ := ObjectiveTerms.read ⟨d, goal, hts⟩
  obtain rfl := Except.ok.inj (h.symm.trans hread)
  exact ⟨rfl, LinearForm.collects_ofTerms hts.nodup⟩

theorem constraint_covers {c : Mentioning Constraint} (h : readConstraint line = .ok c) :
    Covers (ConstraintTerms line) c.mentioned c.value.expression := by
  obtain ⟨terms, hwrites, -, -⟩ := readConstraint_eq_ok.mp h
  refine covers ⟨terms, _, _, hwrites⟩ fun ts ⟨r, q, hts⟩ => ?_
  obtain ⟨r, q, hread⟩ := ConstraintTerms.read ⟨r, q, hts⟩
  obtain rfl := Except.ok.inj (h.symm.trans hread)
  exact ⟨rfl, LinearForm.collects_ofTerms hts.nodup⟩

theorem TermOf.isConstraint {t : String × Rat} (h : TermOf (ConstraintTerms line) t) :
    IsConstraint line := by
  obtain ⟨terms, hterms, -⟩ := h
  obtain ⟨r, q, hread⟩ := hterms.read
  exact ⟨_, hread⟩

/-- What holds of a constraint that was read is a matter of its line. -/
theorem exists_constraintsRead (lines : List (List Char)) {P : Mentioning Constraint → Prop}
    {Q : List Char → Prop} (hQ : ∀ line, Q line → IsConstraint line)
    (h : ∀ {line c}, readConstraint line = .ok c → (P c ↔ Q line)) :
    (∃ c ∈ constraintsRead lines, P c) ↔ ∃ line ∈ lines, Q line := by
  constructor
  · rintro ⟨c, hc, hP⟩
    obtain ⟨line, hline, hread⟩ := mem_constraintsRead.mp hc
    exact ⟨line, hline, (h hread).mp hP⟩
  · rintro ⟨line, hline, hq⟩
    obtain ⟨c, hread⟩ := hQ line hq
    exact ⟨c, mem_constraintsRead.mpr ⟨line, hline, hread⟩, (h hread).mpr hq⟩

/-! ## Programs -/

/-- The program that the lines make up. -/
def assembled (o : Mentioning Objective) (rest : List (List Char)) : Program :=
  ⟨o.value, (constraintsRead rest).map (·.value), ⟨entriesRead rest⟩⟩

section

variable {first : List Char} {rest : List (List Char)} {o : Mentioning Objective}

theorem mem_mentioned (h : readObjective first = .ok o) :
    name ∈ o.mentioned ++ (constraintsRead rest).flatMap (·.mentioned) ↔
      ∃ q, ProgramTerm first rest (name, q) := by
  have hrest : (∃ c ∈ constraintsRead rest, name ∈ c.mentioned) ↔
      ∃ line ∈ rest, ∃ q, TermOf (ConstraintTerms line) (name, q) :=
    exists_constraintsRead rest (fun _ ⟨_, ht⟩ => ht.isConstraint)
      fun hread => (constraint_covers hread).mentioned name
  rw [List.mem_append, List.mem_flatMap, hrest, (objective_covers h).mentioned name]
  grind [ProgramTerm]

theorem mem_used (h : readObjective first = .ok o) :
    name ∈ (assembled o rest).usedVariables ↔
      ∃ q, q ≠ 0 ∧ ProgramTerm first rest (name, q) := by
  have hrest : (∃ c ∈ constraintsRead rest, name ∈ c.value.expression.names) ↔
      ∃ line ∈ rest, ∃ q, q ≠ 0 ∧ TermOf (ConstraintTerms line) (name, q) :=
    exists_constraintsRead rest (fun _ ⟨_, _, ht⟩ => ht.isConstraint)
      fun hread => (constraint_covers hread).names name
  have hexpressions : (∃ e ∈ (assembled o rest).expressions, name ∈ e.names) ↔
      name ∈ o.value.expression.names ∨
        ∃ c ∈ constraintsRead rest, name ∈ c.value.expression.names := by
    simp [assembled, Program.expressions]
  rw [Program.mem_usedVariables, hexpressions, hrest, (objective_covers h).names name]
  grind [ProgramTerm]

/-- The lines fit together: those below the objective are constraints and declarations, no name is
declared twice, the objective's variable is neither declared nor in any term, and the variables of
the terms that are not zero are the declared ones. -/
structure Acceptable (first : List Char) (rest : List (List Char)) (goal : String) : Prop where
  kinds : ∀ line ∈ rest, IsConstraint line ∨ IsDeclaration line
  distinct : ((entriesRead rest).map (·.1)).Nodup
  undeclared : goal ∉ (entriesRead rest).map (·.1)
  unnamed : ∀ q, ¬ ProgramTerm first rest (goal, q)
  used : ∀ name, (∃ q, q ≠ 0 ∧ ProgramTerm first rest (name, q)) ↔
    name ∈ (entriesRead rest).map (·.1)

/-- The last check of a reader decides what is left of the fit. -/
theorem acceptable_iff (h : readObjective first = .ok o) :
    Acceptable first rest o.value.goal ↔
      (∀ line ∈ rest, IsConstraint line ∨ IsDeclaration line) ∧
        ((entriesRead rest).map (·.1)).Nodup ∧
          variableFault? (o.mentioned ++ (constraintsRead rest).flatMap (·.mentioned))
            (assembled o rest) = none := by
  have hgoal : (assembled o rest).objective.goal = o.value.goal := rfl
  have hnames : (assembled o rest).variableNames = (entriesRead rest).map (·.1) := rfl
  simp only [variableFault?_eq_none, hgoal, hnames, mem_mentioned h, mem_used h, not_exists]
  constructor
  · rintro ⟨hkinds, hdistinct, hundeclared, hunnamed, hused⟩
    exact ⟨hkinds, hdistinct, hunnamed, hundeclared, hused⟩
  · rintro ⟨hkinds, hdistinct, hunnamed, hundeclared, hused⟩
    exact ⟨hkinds, hdistinct, hundeclared, hunnamed, hused⟩

theorem readProgramFrom_eq_ok {text : List Char} {p : Program} :
    readProgramFrom text = .ok p ↔ ∃ first rest o, shownLines text = first :: rest ∧
      readObjective first = .ok o ∧ Acceptable first rest o.value.goal ∧
        p = assembled o rest := by
  have hempty : Draft.empty.declarations.names.Nodup := .nil
  rw [← numberedLines_map_fst, readProgramFrom]
  constructor
  · intro h
    split at h
    · cases h
    · rename_i first n rest hlines
      split at h
      · cases h
      · rename_i o ho
        split at h
        · cases h
        · rename_i d hd
          obtain ⟨hkinds, hnames, rfl⟩ := (Draft.addLines_eq_ok hempty).mp hd
          simp only [Draft.after_empty] at h hnames
          split at h
          · cases h
          · rename_i hfault
            cases h
            exact ⟨first, _, o, by simp [hlines], ho,
              (acceptable_iff ho).mpr ⟨hkinds, hnames, hfault⟩, rfl⟩
  · rintro ⟨first, rest, o, hlines, ho, hfit, rfl⟩
    obtain ⟨⟨first, n⟩, numbered, hnumbered, rfl, rfl⟩ := List.map_eq_cons_iff.mp hlines
    obtain ⟨hkinds, hdistinct, hfault⟩ := (acceptable_iff ho).mp hfit
    have hd := (Draft.addLines_eq_ok hempty).mpr
      ⟨hkinds, by rw [Draft.after_empty]; exact hdistinct, rfl⟩
    simp only [hnumbered, ho, hd, Draft.after_empty]
    simp only [assembled] at hfault
    simp only [hfault, assembled]

/-- A text is read as a program precisely when its lines that are not blank begin with an objective
and fit together, and the program is then made up of them; and no line is read both as a constraint
and as a declaration. -/
theorem readProgram_eq_ok_iff (s : String) :
    (∀ p, readProgram s = .ok p ↔ ∃ first rest o, shownLines s.toList = first :: rest ∧
      readObjective first = .ok o ∧ Acceptable first rest o.value.goal ∧
        p = assembled o rest) ∧
    ∀ line, ¬ (IsConstraint line ∧ IsDeclaration line) :=
  ⟨fun _ => readProgramFrom_eq_ok, not_isConstraint_and_isDeclaration⟩

end

end ExactSimplex.Source
