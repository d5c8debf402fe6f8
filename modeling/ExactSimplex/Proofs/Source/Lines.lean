import ExactSimplex.Program.Text
import ExactSimplex.Proofs.LinearForm.Terms
import ExactSimplex.Proofs.Source.Expression
import ExactSimplex.Proofs.Text.Line
import ExactSimplex.Source.Reader

/-! The lines of a program's text are read back one by one: an objective, a constraint and a run
of declarations by the rule of its kind. An objective or a constraint whose expression is empty is
written so that no rule reads it. -/

namespace ExactSimplex

/-- The text of such a form is read back as the form. -/
structure LinearForm.Legible (e : LinearForm) : Prop where
  reduced : e.Reduced
  nonempty : e ≠ .empty
  named : ∀ name ∈ e.names, Variable.isName name.toList = true

namespace Source

variable {order : List String}

/-- At the end of the text nothing is left but the end. -/
theorem Reads.last {α : Type} {rule : List Token → Except Fault (α × List Token)}
    {text : List Char} {value : α} {follow : List Char → Prop}
    (h : Reads rule text value follow) (hend : follow []) (pos : Nat) :
    rule (tokensFrom pos text) =
      .ok (value, [tokenAt .endOfText (pos + Text.width text) []]) := by
  have hread := h pos [] hend
  rwa [List.append_nil, tokensFrom_nil] at hread

theorem expectEnd_last (pos : Nat) : expectEnd [tokenAt .endOfText pos []] = .ok () := rfl

theorem reads_linearForm {e : LinearForm} (he : e.Legible) (ho : order.Nodup) :
    Reads expression (e.text order).toList (e.orderedTerms order) EndsTerms := by
  have hne : e.orderedTerms order ≠ [] := fun h => he.nonempty (LinearForm.orderedTerms_eq_nil.mp h)
  refine reads_expression hne ?_ (LinearForm.orderedTerms_nodup ho)
  intro t ht
  exact he.named _ (List.mem_map_of_mem (LinearForm.mem_orderedTerms_iff.mp ht))

/-- What the expression of a line mentions, in the order of its terms. -/
def mentions (e : LinearForm) (order : List String) : List String :=
  (e.orderedTerms order).map (·.1)

/-! ## Objectives and constraints -/

/-- The words before its expression are read, whatever the expression is. -/
theorem exists_objective_eq {o : Objective} (hgoal : Variable.isName o.goal.toList = true)
    (order : List String) : ∃ pos, objective (tokens (o.text order).toList) = (do
      let (terms, ts) ← expression (tokensFrom pos (o.expression.text order).toList)
      .ok (⟨⟨o.direction, o.goal, LinearForm.ofTerms terms⟩, terms.map (·.1)⟩, ts)) := by
  have htext : (o.text order).toList = o.direction.word.toList ++ (' ' ::
      (o.goal.toList ++ (' ' :: (Relation.equal.symbol.toList ++ (' ' ::
        (o.expression.text order).toList))))) := by
    simp [Objective.text, Relation.symbol]
  have hdirection : ∀ pos ts, direction (tokenAt (directionKind o.direction) pos
      o.direction.word.toList :: ts) = .ok (o.direction, ts) := by
    intro pos ts
    cases o.direction <;> simp [direction, directionKind]
  rw [tokens, htext, (lexesTo_direction _ (stops_cons.mpr rfl)).tokensFrom_eq, tokensFrom_space,
    objective, hdirection]
  simp only [bind, Except.bind]
  rw [variableName?_text hgoal (stops_cons.mpr rfl), tokensFrom_space,
    (lexesTo_symbol _ _).tokensFrom_eq, tokensFrom_space]
  exact ⟨_, rfl⟩

theorem readObjective_text {o : Objective} (hgoal : Variable.isName o.goal.toList = true)
    (he : o.expression.Legible) (ho : order.Nodup) :
    readObjective (o.text order).toList = .ok ⟨o, mentions o.expression order⟩ := by
  obtain ⟨pos, hobjective⟩ := exists_objective_eq hgoal order
  rw [readObjective, whole, hobjective]
  simp only [(reads_linearForm he ho).last EndsTerms.nil, bind, Except.bind, expectEnd_last,
    LinearForm.ofTerms_orderedTerms he.reduced ho, mentions]

theorem constraint_toList (c : Constraint) (order : List String) :
    (c.text order).toList = (c.expression.text order).toList ++
      (' ' :: (c.relation.symbol.toList ++ ' ' :: (Rational.text c.rhs).toList)) := by
  simp [Constraint.text]

theorem tokensFrom_relation (r : Relation) (rest : List Char) (pos : Nat) :
    tokensFrom pos (' ' :: (r.symbol.toList ++ ' ' :: rest)) =
      tokenAt (.relation r) (pos + 1) r.symbol.toList ::
        tokensFrom (pos + 1 + Text.width r.symbol.toList + 1) rest := by
  rw [tokensFrom_space, (lexesTo_symbol _ _).tokensFrom_eq, tokensFrom_space]

theorem EndsTerms.relation (r : Relation) (rest : List Char) :
    EndsTerms (' ' :: (r.symbol.toList ++ ' ' :: rest)) := by
  refine ⟨stops_cons.mpr rfl, fun pos => ?_⟩
  simp [tokensFrom_relation, joint?]

theorem readConstraint_text {c : Constraint} (he : c.expression.Legible) (ho : order.Nodup) :
    readConstraint (c.text order).toList = .ok ⟨c, mentions c.expression order⟩ := by
  rw [readConstraint, whole, tokens, constraint_toList, constraint,
    reads_linearForm he ho _ _ (EndsTerms.relation _ _)]
  simp only [tokensFrom_relation, bind, Except.bind, relation, tokenAt_kind,
    TokenKind.relation?, (reads_value c.rhs).last EndsNumber.nil, expectEnd_last,
    LinearForm.ofTerms_orderedTerms he.reduced ho, mentions]

/-! ## Declarations -/

/-- The names of a declaration, between commas. -/
def joinedNames (names : List String) : List Char := (", ".intercalate names).toList

theorem joinedNames_cons_cons (name next : String) (names : List String) :
    joinedNames (name :: next :: names) =
      name.toList ++ (',' :: ' ' :: joinedNames (next :: names)) := by
  simp [joinedNames, String.toList_intercalate]

theorem namesFrom_cons {name : String} {ts rest : List Token} {t : Token}
    (h : variableName? ts = some (name, t :: rest)) :
    namesFrom ts = if t.kind = .comma then do
        let (later, left) ← namesFrom rest
        .ok (name :: later, left)
      else .ok ([name], t :: rest) := by
  rw [namesFrom]
  grind

theorem tokensFrom_restriction (r : Restriction) (pos : Nat) :
    tokensFrom pos (' ' :: r.keyword.toList) =
      [tokenAt (restrictionKind r) (pos + 1) r.keyword.toList,
        tokenAt .endOfText (pos + 1 + Text.width r.keyword.toList) []] := by
  rw [tokensFrom_space, ← List.append_nil r.keyword.toList,
    (lexesTo_restriction r).tokensFrom_eq, tokensFrom_nil, List.append_nil]

/-- Names are read up to the space before their restriction. -/
theorem reads_names {names : List String} (hne : names ≠ [])
    (hnames : ∀ name ∈ names, Variable.isName name.toList = true) (r : Restriction) :
    Reads namesFrom (joinedNames names) names (· = ' ' :: r.keyword.toList) := by
  induction names with
  | nil => exact absurd rfl hne
  | cons name names ih =>
    rintro pos rest rfl
    have hname := hnames name List.mem_cons_self
    cases names with
    | nil =>
      have hstops : Stops Char.isAlphanum (' ' :: r.keyword.toList) := stops_cons.mpr rfl
      have hlast := variableName?_text hname hstops pos
      simp only [joinedNames, String.intercalate_singleton, tokensFrom_restriction] at hlast ⊢
      rw [namesFrom_cons hlast]
      cases r <;> simp [restrictionKind]
    | cons next more =>
      have hlater := ih (by simp) (fun n hn => hnames n (List.mem_cons_of_mem _ hn))
      have hstops : Stops Char.isAlphanum
          ([','] ++ ' ' :: (joinedNames (next :: more) ++ ' ' :: r.keyword.toList)) :=
        stops_cons.mpr rfl
      have hfirst := variableName?_text hname hstops pos
      rw [(lexesTo_comma _).tokensFrom_eq, tokensFrom_space] at hfirst
      have htext : joinedNames (name :: next :: more) ++ ' ' :: r.keyword.toList = name.toList ++
          ([','] ++ ' ' :: (joinedNames (next :: more) ++ ' ' :: r.keyword.toList)) := by
        simp [joinedNames_cons_cons]
      rw [htext, namesFrom_cons hfirst, tokenAt_kind, if_pos rfl, hlater _ _ rfl]
      have hspace : ' '.utf8Size = 1 := rfl
      simp [joinedNames_cons_cons, bind, Except.bind, Nat.add_assoc, hspace]

theorem runText_toList (run : List String × Restriction) :
    (Declarations.runText run).toList = joinedNames run.1 ++ ' ' :: run.2.keyword.toList := by
  simp [Declarations.runText, joinedNames]

theorem readDeclaration_text {run : List String × Restriction} (hne : run.1 ≠ [])
    (hnames : ∀ name ∈ run.1, Variable.isName name.toList = true) :
    readDeclaration (Declarations.runText run).toList =
      .ok (run.1.map fun name => (name, run.2)) := by
  rw [readDeclaration, whole, tokens, runText_toList, declaration,
    reads_names hne hnames run.2 _ _ rfl]
  simp only [tokensFrom_restriction, bind, Except.bind]
  cases run.2 <;> simp [restriction, restrictionKind, expectEnd_last]

/-! ## Empty expressions -/

theorem EndsNumber.relation (r : Relation) (rest : List Char) :
    EndsNumber (' ' :: (r.symbol.toList ++ ' ' :: rest)) := by
  refine ⟨stops_cons.mpr rfl, stops_cons.mpr rfl, fun span pos => ?_⟩
  simp [tokensFrom_relation, touching?]

theorem text_of_empty {e : LinearForm} (he : e = .empty) (order : List String) :
    e.text order = LinearForm.termsText [] := by
  rw [LinearForm.text, LinearForm.orderedTerms_eq_nil.mpr he]

/-- An objective with an empty expression is written so that it cannot be read. -/
theorem readObjective_empty {o : Objective} (hgoal : Variable.isName o.goal.toList = true)
    (he : o.expression = .empty) :
    readObjective (o.text order).toList = .error (.malformedTerm "end of line") := by
  have hname : ∀ pos, variableName? (tokensFrom pos []) = none := by
    intro pos
    simp [tokensFrom_nil, variableName?]
  obtain ⟨pos, hobjective⟩ := exists_objective_eq hgoal order
  have hzero := expression_zero EndsNumber.nil hname pos
  rw [List.append_nil, ← text_of_empty he order] at hzero
  rw [readObjective, whole, hobjective, hzero, tokensFrom_nil]
  rfl

/-- Neither can a constraint with an empty expression be read. -/
theorem readConstraint_empty {c : Constraint} (he : c.expression = .empty)
    (order : List String) :
    readConstraint (c.text order).toList = .error (.malformedTerm c.relation.symbol) := by
  have hname : ∀ pos, variableName? (tokensFrom pos
      (' ' :: (c.relation.symbol.toList ++ ' ' :: (Rational.text c.rhs).toList))) = none := by
    intro pos
    simp [tokensFrom_relation, variableName?]
  have hzero := expression_zero (EndsNumber.relation _ _) hname 0
  rw [← text_of_empty he order, ← constraint_toList] at hzero
  rw [readConstraint, whole, tokens, constraint, hzero, tokensFrom_relation]
  simp [malformedTerm, bind, Except.bind]

/-- It is no declaration either, since no name comes first. -/
theorem readDeclaration_empty {c : Constraint} (he : c.expression = .empty)
    (order : List String) : ∃ f, readDeclaration (c.text order).toList = .error f := by
  obtain ⟨first, ts, hts, hkind, -⟩ := exists_first_number false (Rat.le_refl (a := 0))
    (EndsNumber.relation c.relation (Rational.text c.rhs).toList) 0
  have hnames : namesFrom (first :: ts) = .error (unexpected "variable" (first :: ts)) := by
    have hnone : variableName? (first :: ts) = none := by simp [variableName?, hkind]
    rw [namesFrom]
    grind
  refine ⟨unexpected "variable" (first :: ts), ?_⟩
  rw [readDeclaration, whole, tokens, declaration, constraint_toList, text_of_empty he,
    show (LinearForm.termsText []).toList = Rational.magnitude 0 by decide, hts, hnames]
  rfl

end Source

end ExactSimplex
