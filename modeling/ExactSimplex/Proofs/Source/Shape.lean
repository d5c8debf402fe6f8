import ExactSimplex.Proofs.Source.Forms

/-! The shape of a constraint. A line is in shape when it would be a constraint if every two numbers
with a slash between them were a value and a variable could stand in two terms. What is in shape
either writes a constraint, or a quotient that is no value or a variable that comes again is the
first thing that it does not share with one. -/

namespace ExactSimplex.Source

variable {ts us : List Token} {f : Fault}

/-! ## Shapes -/

/-- `number ['/' number]`. -/
inductive ShapedMagnitude : List Token → Prop
  | number {t : Token} : t.kind = .number → ShapedMagnitude [t]
  | quotient {t slash u : Token} : t.kind = .number → slash.kind = .slash → u.kind = .number →
      t.Touches slash → slash.Touches u → ShapedMagnitude [t, slash, u]

/-- `['-'] number ['/' number]`. -/
inductive ShapedValue : List Token → Prop
  | magnitude {ts : List Token} : ShapedMagnitude ts → ShapedValue ts
  | negative {sign t : Token} {ts : List Token} : sign.kind = .minus → sign.Touches t →
      ShapedMagnitude (t :: ts) → ShapedValue (sign :: t :: ts)

/-- Nothing, a minus sign alone or the shape of a value. -/
inductive ShapedCoefficient : List Token → Prop
  | implicit : ShapedCoefficient []
  | sign {t : Token} : t.kind = .minus → ShapedCoefficient [t]
  | value {ts : List Token} : ShapedValue ts → ShapedCoefficient ts

/-- `coefficient name`. -/
inductive ShapedTerm : List Token → Prop
  | mk {ts : List Token} {name : Token} : ShapedCoefficient ts → name.IsName →
      ShapedTerm (ts ++ [name])

/-- `(('+' | '-') term)*`. -/
inductive ShapedLater : List Token → Prop
  | none : ShapedLater []
  | joined {negate : Bool} {sign : Token} {ts us : List Token} :
      sign.kind = (if negate then .minus else .plus) → ShapedTerm ts → ShapedLater us →
      ShapedLater (sign :: (ts ++ us))

/-- `term (('+' | '-') term)* relation value`. -/
inductive ShapedConstraint : List Token → Prop
  | mk {ts us vs : List Token} {symbol : Token} {r : Relation} : ShapedTerm ts → ShapedLater us →
      symbol.kind = .relation r → ShapedValue vs → ShapedConstraint (ts ++ us ++ symbol :: vs)

theorem ShapedMagnitude.exists_last (h : ShapedMagnitude ts) :
    ∃ t, ts.getLast? = some t ∧ t.kind = .number := by
  cases h with
  | number hkind => exact ⟨_, rfl, hkind⟩
  | quotient _ _ hbelow _ _ => exact ⟨_, rfl, hbelow⟩

theorem ShapedValue.exists_last (h : ShapedValue ts) :
    ∃ t, ts.getLast? = some t ∧ t.kind = .number := by
  cases h with
  | magnitude hm => exact hm.exists_last
  | negative _ _ hm => simpa [List.getLast?_cons_cons] using hm.exists_last

/-- What is in the shape of a constraint ends with a number. -/
theorem ShapedConstraint.exists_last (h : ShapedConstraint ts) :
    ∃ t, ts.getLast? = some t ∧ t.kind = .number := by
  obtain ⟨-, -, -, hvalue⟩ := h
  obtain ⟨t, hlast, hkind⟩ := hvalue.exists_last
  exact ⟨t, by simp [List.getLast?_append, List.getLast?_cons, hlast], hkind⟩

/-! ## What is written is in shape -/

section

variable {q : Rat} {terms : List (String × Rat)}

theorem WritesMagnitude.shaped (h : WritesMagnitude ts q) : ShapedMagnitude ts := by
  cases h with
  | number hkind _ => exact .number hkind
  | quotient hkind hslash hbelow htouch htouch' _ _ _ =>
    exact .quotient hkind hslash hbelow htouch htouch'

theorem WritesValue.shaped (h : WritesValue ts q) : ShapedValue ts := by
  cases h with
  | magnitude hm => exact .magnitude hm.shaped
  | negative hsign htouch hm => exact .negative hsign htouch hm.shaped

theorem WritesCoefficient.shaped (h : WritesCoefficient ts q) : ShapedCoefficient ts := by
  cases h with
  | implicit => exact .implicit
  | sign hsign => exact .sign hsign
  | value hvalue => exact .value hvalue.shaped

theorem WritesTerm.shaped {t : String × Rat} (h : WritesTerm ts t) : ShapedTerm ts := by
  cases h with
  | mk hcoefficient hname => exact .mk hcoefficient.shaped hname

theorem WritesLater.shaped (h : WritesLater ts terms) : ShapedLater ts := by
  induction h with
  | none => exact .none
  | joined hsign ht _ ih => exact .joined hsign ht.shaped ih

theorem DenotesConstraint.shaped {c : Mentioning Constraint} (h : DenotesConstraint ts c) :
    ShapedConstraint ts := by
  obtain ⟨_, ⟨⟨ht, hlater, -⟩, hsymbol, hvalue⟩, -, -⟩ := h
  exact .mk ht.shaped hlater.shaped hsymbol hvalue.shaped

end

/-! ## What spoils a shape -/

/-- A quotient that is no value: on one side of the slash stands a decimal, or zero stands below. -/
inductive SpoilsMagnitude : List Token → String → Prop
  | mk {t slash u : Token} : t.kind = .number → slash.kind = .slash → u.kind = .number →
      t.Touches slash → slash.Touches u →
      ¬ (Numeral.IsDigits t.text.toList ∧ Numeral.IsDigits u.text.toList ∧
        Numeral.value u.text.toList ≠ 0) →
      SpoilsMagnitude [t, slash, u] (t.text ++ "/" ++ u.text)

/-- The fault of such a quotient names its text, with the sign. -/
inductive SpoilsValue : List Token → Fault → Prop
  | magnitude {ts : List Token} {text : String} : SpoilsMagnitude ts text →
      SpoilsValue ts (.invalidNumber text)
  | negative {sign t : Token} {ts : List Token} {text : String} : sign.kind = .minus →
      sign.Touches t → SpoilsMagnitude (t :: ts) text →
      SpoilsValue (sign :: t :: ts) (.invalidNumber ("-" ++ text))

/-- The terms of an expression up to the first that has no value for its coefficient or has a
variable of `seen` or of an earlier term. -/
inductive SpoilsTerms : List String → List Token → Fault → Prop
  | coefficient {seen : List String} {ts : List Token} {f : Fault} : SpoilsValue ts f →
      SpoilsTerms seen ts f
  | repeated {seen : List String} {ts : List Token} {t : String × Rat} : WritesTerm ts t →
      t.1 ∈ seen → SpoilsTerms seen ts (.duplicateVariable t.1)
  | later {seen : List String} {negate : Bool} {sign : Token} {ts us : List Token}
      {t : String × Rat} {f : Fault} : WritesTerm ts t → t.1 ∉ seen →
      sign.kind = (if negate then .minus else .plus) → SpoilsTerms (t.1 :: seen) us f →
      SpoilsTerms seen (ts ++ sign :: us) f

/-- A constraint up to what spoils its expression, or the value at its end. -/
inductive SpoilsConstraint : List Token → Fault → Prop
  | expression {ts : List Token} {f : Fault} : SpoilsTerms [] ts f → SpoilsConstraint ts f
  | value {ts us : List Token} {symbol : Token} {terms : List (String × Rat)} {r : Relation}
      {f : Fault} : WritesExpression ts terms → symbol.kind = .relation r → SpoilsValue us f →
      SpoilsConstraint (ts ++ symbol :: us) f

/-- The tokens begin with something that is spoilt. -/
def Begins (spoils : List Token → Fault → Prop) (ts : List Token) (f : Fault) : Prop :=
  ∃ used more, ts = used ++ more ∧ spoils used f

theorem begins_self {spoils : List Token → Fault → Prop} (h : spoils ts f) :
    Begins spoils ts f := ⟨ts, [], by simp, h⟩

theorem Begins.append {spoils : List Token → Fault → Prop} (h : Begins spoils ts f)
    (us : List Token) : Begins spoils (ts ++ us) f := by
  obtain ⟨used, more, rfl, hused⟩ := h
  exact ⟨used, more ++ us, by simp, hused⟩

theorem Begins.imp {spoils spoils' : List Token → Fault → Prop}
    (himp : ∀ {used}, spoils used f → spoils' used f) (h : Begins spoils ts f) :
    Begins spoils' ts f := by
  obtain ⟨used, more, rfl, hused⟩ := h
  exact ⟨used, more, rfl, himp hused⟩

/-- What spoils a constraint is a number or a variable. -/
def IsValueFault (f : Fault) : Prop :=
  (∃ text, f = .invalidNumber text) ∨ ∃ name, f = .duplicateVariable name

theorem IsValueFault.not_shapeMismatch (h : IsValueFault f) : f.isShapeMismatch = false := by
  rcases h with ⟨text, rfl⟩ | ⟨name, rfl⟩ <;> rfl

theorem SpoilsValue.isValueFault (h : SpoilsValue ts f) : IsValueFault f := by
  cases h <;> exact .inl ⟨_, rfl⟩

theorem SpoilsTerms.isValueFault {seen : List String} (h : SpoilsTerms seen ts f) :
    IsValueFault f := by
  induction h with
  | coefficient h => exact h.isValueFault
  | repeated _ _ => exact .inr ⟨_, rfl⟩
  | later _ _ _ _ ih => exact ih

theorem SpoilsConstraint.isValueFault (h : SpoilsConstraint ts f) : IsValueFault f := by
  cases h with
  | expression h => exact h.isValueFault
  | value _ _ h => exact h.isValueFault

theorem SpoilsMagnitude.inner {text : String} (h : SpoilsMagnitude ts text) : Inner ts := by
  cases h
  simp_all

theorem SpoilsValue.inner (h : SpoilsValue ts f) : Inner ts := by
  cases h with
  | magnitude hm => exact hm.inner
  | negative hsign _ hm => simp only [inner_cons, hsign]; exact ⟨by simp, inner_cons.mp hm.inner⟩

theorem SpoilsTerms.inner {seen : List String} (h : SpoilsTerms seen ts f) : Inner ts := by
  induction h with
  | coefficient h => exact h.inner
  | repeated ht _ => exact ht.inner
  | @later _ negate _ _ _ _ _ ht _ hsign _ ih => cases negate <;> simp [ht.inner, hsign, ih]

theorem SpoilsConstraint.inner (h : SpoilsConstraint ts f) : Inner ts := by
  cases h with
  | expression h => exact h.inner
  | value hterms hsymbol h => simp [hterms.inner, hsymbol, h.inner]

/-! ## What is in shape is written or spoilt -/

theorem WellLexed.left (h : WellLexed (ts ++ us)) : WellLexed ts :=
  fun t ht => h t (List.mem_append_left _ ht)

theorem ShapedMagnitude.writes_or_spoils (h : ShapedMagnitude ts) (hts : WellLexed ts) :
    (∃ q, WritesMagnitude ts q) ∨ ∃ text, SpoilsMagnitude ts text := by
  cases h with
  | number hkind =>
    obtain ⟨q, hq⟩ := hts _ List.mem_cons_self hkind
    exact .inl ⟨q, .number hkind hq⟩
  | @quotient t slash u hkind hslash hbelow htouch htouch' =>
    by_cases hdigits : Numeral.IsDigits t.text.toList ∧ Numeral.IsDigits u.text.toList ∧
        Numeral.value u.text.toList ≠ 0
    · obtain ⟨htop, hbottom, hzero⟩ := hdigits
      exact .inl ⟨_, .quotient hkind hslash hbelow htouch htouch' htop hbottom hzero⟩
    · exact .inr ⟨_, .mk hkind hslash hbelow htouch htouch' hdigits⟩

theorem ShapedValue.writes_or_spoils (h : ShapedValue ts) (hts : WellLexed ts) :
    (∃ q, WritesValue ts q) ∨ ∃ f, SpoilsValue ts f := by
  cases h with
  | magnitude hm =>
    rcases hm.writes_or_spoils hts with ⟨q, hq⟩ | ⟨text, htext⟩
    · exact .inl ⟨q, .magnitude hq⟩
    · exact .inr ⟨_, .magnitude htext⟩
  | negative hsign htouch hm =>
    rcases hm.writes_or_spoils hts.tail with ⟨q, hq⟩ | ⟨text, htext⟩
    · exact .inl ⟨-q, .negative hsign htouch hq⟩
    · exact .inr ⟨_, .negative hsign htouch htext⟩

theorem ShapedTerm.writes_or_spoils (h : ShapedTerm ts) (hts : WellLexed ts) :
    (∃ t, WritesTerm ts t) ∨ ∃ f, Begins SpoilsValue ts f := by
  obtain ⟨hcoefficient, hname⟩ := h
  rename_i name us
  cases hcoefficient with
  | implicit => exact .inl ⟨_, .mk .implicit hname⟩
  | sign hsign => exact .inl ⟨_, .mk (.sign hsign) hname⟩
  | value hvalue =>
    rcases hvalue.writes_or_spoils hts.left with ⟨q, hq⟩ | ⟨f, hf⟩
    · exact .inl ⟨_, .mk (.value hq) hname⟩
    · exact .inr ⟨f, (begins_self hf).append _⟩

/-- Induction on the terms after the first; the variables before them are those of `seen`. -/
theorem ShapedLater.writes_or_spoils (h : ShapedLater us) (ht : ShapedTerm ts)
    (hts : WellLexed (ts ++ us)) (seen : List String) :
    (∃ t later, WritesTerm ts t ∧ WritesLater us later ∧ ((t :: later).map (·.1)).Nodup ∧
      ∀ name ∈ (t :: later).map (·.1), name ∉ seen) ∨
    ∃ f, Begins (SpoilsTerms seen) (ts ++ us) f := by
  induction h generalizing ts seen with
  | none =>
    rcases ht.writes_or_spoils hts.left with ⟨t, hwrites⟩ | ⟨f, hf⟩
    · by_cases hseen : t.1 ∈ seen
      · exact .inr ⟨_, (begins_self (.repeated hwrites hseen)).append _⟩
      · exact .inl ⟨t, [], hwrites, .none, by simp, by simpa using hseen⟩
    · exact .inr ⟨f, (hf.imp .coefficient).append _⟩
  | @joined negate sign ts' us hsign ht' _ ih =>
    rcases ht.writes_or_spoils hts.left with ⟨t, hwrites⟩ | ⟨f, hf⟩
    · by_cases hseen : t.1 ∈ seen
      · exact .inr ⟨_, (begins_self (.repeated hwrites hseen)).append _⟩
      · rcases ih ht' hts.right.tail (t.1 :: seen) with
          ⟨u, later, hu, hlater, hnodup, hfresh⟩ | ⟨f, used, more, happ, hf⟩
        · refine .inl ⟨t, _, hwrites, .joined hsign hu hlater, ?_, ?_⟩
          · exact List.nodup_cons.mpr ⟨fun hmem => hfresh t.1 hmem List.mem_cons_self, hnodup⟩
          · refine List.forall_mem_cons.mpr ⟨hseen, fun name hname hmem => ?_⟩
            exact hfresh name hname (List.mem_cons_of_mem _ hmem)
        · exact .inr ⟨f, ts ++ sign :: used, more, by simp [happ],
            .later hwrites hseen hsign hf⟩
    · exact .inr ⟨f, (hf.imp .coefficient).append _⟩

/-- Tokens in the shape of a constraint are one, or begin with one that is spoilt. -/
theorem ShapedConstraint.writes_or_spoils (h : ShapedConstraint ts) (hts : WellLexed ts) :
    (∃ c, DenotesConstraint ts c) ∨ ∃ f, Begins SpoilsConstraint ts f := by
  cases h with
  | @mk ts us vs symbol r ht hlater hsymbol hvalue =>
    rcases hlater.writes_or_spoils ht hts.left [] with
      ⟨t, later, hwrites, hwrites', hnodup, -⟩ | ⟨f, hf⟩
    · have hexpression := WritesExpression.mk hwrites hwrites' hnodup
      rcases hvalue.writes_or_spoils hts.right.tail with ⟨q, hq⟩ | ⟨f, hf⟩
      · exact .inl ⟨⟨⟨.ofTerms (t :: later), r, q⟩, (t :: later).map (·.1)⟩, t :: later,
          .mk hexpression hsymbol hq, LinearForm.collects_ofTerms hnodup, rfl⟩
      · exact .inr ⟨f, begins_self (.value hexpression hsymbol hf)⟩
    · exact .inr ⟨f, (hf.imp .expression).append _⟩

end ExactSimplex.Source
