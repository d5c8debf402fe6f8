import ExactSimplex.Json.Trace
import ExactSimplex.Proofs.Engine.Shown
import ExactSimplex.Proofs.LinearForm.Stored
import ExactSimplex.Proofs.Rational.Literal
import ExactSimplex.Proofs.Traversal

/-! Reading back what is written. Every value that a trace holds is read back from the JSON value
that it is written as: words by their spelling, fractions by their text, records by their fields
and lists item by item, whatever shape the tableaux have and however deep the finer steps go. Only
a row number can fail to come back, since one is read as an unsigned word of 64 bits. -/

namespace ExactSimplex

/-! ## Words, fractions and lists -/

namespace Json

theorem rational?_ofRational (q : Rat) : (ofRational q).rational? = some q := by
  rw [ofRational, rational?, string?, Option.bind_some, Rational.read_text]
  rfl

theorem nat?_nat_eq_some_iff {n : Nat} : (nat n).nat? = some n ↔ n < UInt64.size := by
  change (if n < UInt64.size then some n else none) = some n ↔ n < UInt64.size
  by_cases h : n < UInt64.size <;> simp [h]

/-- A list is read back precisely if each of its items is. -/
theorem listOf?_map_eq_some_iff {α : Type} {write : α → Json} {read? : Json → Option α}
    {as : List α} :
    listOf? read? (.array (as.map write)) = some as ↔ ∀ a ∈ as, read? (write a) = some a := by
  rw [listOf?, array?, Option.bind_some, mapM_eq_some_iff, List.forall₂_map_left_iff,
    List.forall₂_same]

theorem listOf?_map {α : Type} {write : α → Json} {read? : Json → Option α}
    (h : ∀ a, read? (write a) = some a) (as : List α) :
    listOf? read? (.array (as.map write)) = some as :=
  listOf?_map_eq_some_iff.mpr fun a _ => h a

theorem listOf?_strings (ss : List String) : listOf? string? (strings ss) = some ss :=
  listOf?_map_eq_some_iff.mpr fun _ _ => rfl

end Json

open Json

theorem Direction.ofJson?_toJson (d : Direction) : ofJson? d.toJson = some d := by
  cases d <;> decide +kernel

theorem Relation.ofJson?_toJson (r : Relation) : ofJson? r.toJson = some r := by
  cases r <;> decide +kernel

theorem Restriction.ofJson?_toJson (r : Restriction) : ofJson? r.toJson = some r := by
  cases r <;> decide +kernel

theorem StateKind.ofJson?_toJson (k : StateKind) : ofJson? k.toJson = some k := by
  cases k <;> decide +kernel

/-! ## Programs -/

theorem LinearForm.ofJson?_toJson (p : LinearForm) : ofJson? p.toJson = some p := by
  have hterms : (p.terms.map fun t => (t.1, ofRational t.2)).mapM
      (fun m => (m.2.rational?).map fun q => (m.1, q)) = some p.terms := by
    induction p.terms with
    | nil => rfl
    | cons t ts ih =>
      rw [List.map_cons, List.mapM_cons, ih, rational?_ofRational]
      rfl
  rw [toJson, ofJson?, object?]
  simp only [Option.bind_eq_bind, Option.bind_some, hterms, ofStored_terms]

theorem Declarations.ofJson?_toJson (d : Declarations) : ofJson? d.toJson = some d := by
  have hentry (e : String × Restriction) :
      pairOf? string? Restriction.ofJson? (.array [.string e.1, e.2.toJson]) = some e := by
    rw [pairOf?, string?, Restriction.ofJson?_toJson]
    rfl
  rw [ofJson?, toJson, listOf?_map hentry]
  rfl

theorem Objective.ofJson?_toJson (o : Objective) : ofJson? o.toJson = some o := by
  have hfields : o.toJson.record? fields =
      some [o.direction.toJson, .string o.goal, o.expression.toJson] := rfl
  simp [ofJson?, hfields, string?, Direction.ofJson?_toJson, LinearForm.ofJson?_toJson]

theorem Constraint.ofJson?_toJson (c : Constraint) : ofJson? c.toJson = some c := by
  have hfields : c.toJson.record? fields =
      some [c.expression.toJson, c.relation.toJson, .ofRational c.rhs] := rfl
  simp [ofJson?, hfields, LinearForm.ofJson?_toJson, Relation.ofJson?_toJson,
    rational?_ofRational]

theorem Program.ofJson?_toJson (p : Program) : ofJson? p.toJson = some p := by
  have hfields : p.toJson.record? fields =
      some [p.objective.toJson, .array (p.constraints.map Constraint.toJson),
        p.declarations.toJson] := rfl
  simp [ofJson?, hfields, Objective.ofJson?_toJson, listOf?_map Constraint.ofJson?_toJson,
    Declarations.ofJson?_toJson]

/-! ## Tableaux and solutions -/

theorem Tableau.ofJson?_toJson (t : Tableau) : ofJson? t.toJson = some t := by
  have hfields : t.toJson.record? fields =
      some [t.direction.toJson, .strings t.columns,
        .array (t.rows.map fun row => .array (row.map .ofRational)), t.objective.toJson] := rfl
  simp [ofJson?, hfields, Direction.ofJson?_toJson, listOf?_strings,
    listOf?_map (listOf?_map rational?_ofRational), Objective.ofJson?_toJson]

theorem Ratio.ofJson?_toJson (r : Ratio) : ofJson? r.toJson = some r := by
  cases r with
  | finite q =>
    have hcase : (toJson (finite q)).case? = some ("Finite", some (.ofRational q)) := rfl
    simp [ofJson?, hcase, rational?_ofRational]
  | infinite => rfl

theorem Entering.ofJson?_toJson (e : Entering) : ofJson? e.toJson = some e := by
  have hfields : e.toJson.record? fields = some [e.tableau.toJson, .string e.name] := rfl
  simp [ofJson?, hfields, Tableau.ofJson?_toJson, string?]

theorem Solution.ofJson?_toJson (s : Solution) : ofJson? s.toJson = some s := by
  have hvalue (v : String × Rat) :
      pairOf? string? rational? (.array [.string v.1, .ofRational v.2]) = some v := by
    rw [pairOf?, string?, rational?_ofRational]
    rfl
  have hfields : s.toJson.record? fields =
      some [.string s.goal, .ofRational s.objectiveValue,
        .array (s.values.map fun v => .array [.string v.1, .ofRational v.2]),
        .strings s.basis] := rfl
  simp [ofJson?, hfields, string?, rational?_ofRational, listOf?_map hvalue, listOf?_strings]

/-! ## Row numbers -/

/-- The rows that the operation names have numbers of at most 64 bits. -/
def RowOperation.Fits : RowOperation → Prop
  | scale row _ => row < UInt64.size
  | addMultiple row _ source => row < UInt64.size ∧ source < UInt64.size

/-- The rows that the state names have numbers of at most 64 bits. -/
def State.Fits : State → Prop
  | leaving l => l.row < UInt64.size
  | pivoted p => ∀ op ∈ p.operations, op.Fits
  | _ => True

theorem RowOperation.ofJson?_toJson_iff {op : RowOperation} :
    ofJson? op.toJson = some op ↔ op.Fits := by
  cases op with
  | scale row factor =>
    have hcase : (toJson (scale row factor)).case? =
        some ("Scale", some (.object [("row", .nat row), ("factor", .ofRational factor)])) := rfl
    have hfields : (Json.object [("row", .nat row), ("factor", .ofRational factor)]).fields?
        scaleFields = some [.nat row, .ofRational factor] := rfl
    simp [ofJson?, hcase, hfields, rational?_ofRational, Option.bind_eq_some_iff, Fits,
      ← nat?_nat_eq_some_iff]
  | addMultiple row factor source =>
    have hcase : (toJson (addMultiple row factor source)).case? = some ("AddMultiple",
        some (.object [("row", .nat row), ("factor", .ofRational factor),
          ("source", .nat source)])) := rfl
    have hfields : (Json.object [("row", .nat row), ("factor", .ofRational factor),
        ("source", .nat source)]).fields? addMultipleFields =
          some [.nat row, .ofRational factor, .nat source] := rfl
    simp [ofJson?, hcase, hfields, rational?_ofRational, Option.bind_eq_some_iff, Fits,
      ← nat?_nat_eq_some_iff]

/-- The least row number that does not come back. -/
example : RowOperation.ofJson? (RowOperation.scale UInt64.size 1).toJson = none := by
  decide +kernel

theorem Leaving.ofJson?_toJson_iff {l : Leaving} :
    ofJson? l.toJson = some l ↔ l.row < UInt64.size := by
  obtain ⟨tableau, entering, leaving, row, ratios⟩ := l
  have hfields : (toJson ⟨tableau, entering, leaving, row, ratios⟩).record? fields =
      some [tableau.toJson, .string entering, .string leaving, .nat row,
        .array (ratios.map Ratio.toJson)] := rfl
  simp [ofJson?, hfields, Tableau.ofJson?_toJson, string?, listOf?_map Ratio.ofJson?_toJson,
    Option.bind_eq_some_iff, ← nat?_nat_eq_some_iff]

theorem Pivoted.ofJson?_toJson_iff {p : Pivoted} :
    ofJson? p.toJson = some p ↔ ∀ op ∈ p.operations, op.Fits := by
  obtain ⟨tableau, scaled, operations⟩ := p
  have hfields : (toJson ⟨tableau, scaled, operations⟩).record? fields =
      some [tableau.toJson, scaled.toJson, .array (operations.map RowOperation.toJson)] := rfl
  simp [ofJson?, hfields, Tableau.ofJson?_toJson, Option.bind_eq_some_iff,
    ← RowOperation.ofJson?_toJson_iff, listOf?_map_eq_some_iff]

/-! ## States and steps -/

theorem State.ofContent?_contentJson_iff {s : State} :
    ofContent? s.contentJson s.kind = some s ↔ s.Fits := by
  cases s with
  | leaving l => simp [ofContent?, contentJson, kind, Fits, ← Leaving.ofJson?_toJson_iff]
  | pivoted p => simp [ofContent?, contentJson, kind, Fits, ← Pivoted.ofJson?_toJson_iff]
  | _ =>
    simp [ofContent?, contentJson, kind, Fits, Program.ofJson?_toJson, Tableau.ofJson?_toJson,
      Entering.ofJson?_toJson, Solution.ofJson?_toJson]

theorem State.ofJson?_toJson_iff {s : State} : ofJson? s.toJson = some s ↔ s.Fits := by
  have hfields : s.toJson.record? fields = some [s.kind.toJson, s.contentJson] := rfl
  simp [ofJson?, hfields, StateKind.ofJson?_toJson, ofContent?_contentJson_iff]

/-- The texts of a step are always read back, so it comes back with its result and finer steps. -/
theorem Step.ofJson?_toJson_eq (s : Step) :
    ofJson? s.toJson = (State.ofJson? s.result.toJson).bind fun result =>
      (listOfJson? (listToJson s.substeps)).bind fun substeps =>
        some ⟨s.name, s.what, s.how, result, substeps⟩ := by
  obtain ⟨name, what, how, result, substeps⟩ := s
  have hfields : (toJson ⟨name, what, how, result, substeps⟩).record? fields =
      some [.string name, .string what, .string how, result.toJson,
        .array (listToJson substeps)] := rfl
  rw [ofJson?]
  split
  · rename_i h
    rw [hfields] at h
    cases h
    rfl
  · rename_i h
    exact absurd hfields (h _ _ _ _ _)

theorem shows_cons {s : Step} {steps : List Step} {state : State} :
    Shows (s :: steps) state ↔
      state = s.result ∨ Shows s.substeps state ∨ Shows steps state := by
  constructor
  · rintro (hmem | ⟨hmem, hin⟩)
    · rcases List.mem_cons.mp hmem with rfl | hmem
      · exact .inl rfl
      · exact .inr (.inr (.result hmem))
    · rcases List.mem_cons.mp hmem with rfl | hmem
      · exact .inr (.inl hin)
      · exact .inr (.inr (.inside hmem hin))
  · rintro (rfl | hin | hrest)
    · exact .result List.mem_cons_self
    · exact .inside List.mem_cons_self hin
    · cases hrest with
      | result hmem => exact .result (List.mem_cons_of_mem _ hmem)
      | inside hmem hin => exact .inside (List.mem_cons_of_mem _ hmem) hin

mutual

theorem Step.ofJson?_toJson_iff : ∀ s : Step, ofJson? s.toJson = some s ↔
    s.result.Fits ∧ ∀ state, Shows s.substeps state → state.Fits
  | ⟨name, what, how, result, substeps⟩ => by
    rw [ofJson?_toJson_eq, ← listOfJson?_listToJson_iff substeps, ← State.ofJson?_toJson_iff]
    simp [Option.bind_eq_some_iff]

theorem Step.listOfJson?_listToJson_iff : ∀ steps : List Step,
    listOfJson? (listToJson steps) = some steps ↔ ∀ state, Shows steps state → state.Fits
  | [] => by simp [listOfJson?, listToJson, not_shows_nil]
  | s :: rest => by
    have hshown : (∀ state, Shows (s :: rest) state → state.Fits) ↔
        (s.result.Fits ∧ ∀ state, Shows s.substeps state → state.Fits) ∧
          ∀ state, Shows rest state → state.Fits := by
      simp only [shows_cons, or_imp, forall_and, forall_eq, and_assoc]
    rw [hshown, ← ofJson?_toJson_iff s, ← listOfJson?_listToJson_iff rest, listToJson,
      listOfJson?]
    simp [Option.bind_eq_some_iff]

end

/-- A list of steps comes back from the JSON value that it is written as, whatever its states hold
and however deep its finer steps go, precisely if the row numbers in its states, which are read as
words of 64 bits, are such words. -/
theorem stepsOfJson?_stepsToJson_iff (steps : List Step) :
    stepsOfJson? (stepsToJson steps) = some steps ↔ ∀ state, Shows steps state → state.Fits :=
  Step.listOfJson?_listToJson_iff steps

end ExactSimplex
