import ExactSimplex.Proofs.Source.Located
import ExactSimplex.Proofs.Source.Shape

/-! How a line is refused. The rules read from left to right and report the first thing that they
cannot go on from. So a quotient that is no value and a variable that comes again are reported
wherever a constraint could have begun with them, also in a line that later loses the shape of a
constraint; any other line of neither form is reported as a whole. -/

namespace ExactSimplex.Source

variable {α : Type} {ts rest : List Token} {line : List Char} {f : Fault}

/-- What spoils the front of its tokens makes the rule fail with its fault, whatever follows, and
all faults of the rule but those of shape come about in this way. -/
structure Detects (rule : List Token → Except Fault (α × List Token))
    (spoils : List Token → Fault → Prop) : Prop where
  sound : ∀ {ts : List Token} {f : Fault}, WellLexed ts → rule ts = .error f →
    f.isShapeMismatch = false → Begins spoils ts f
  complete : ∀ {used : List Token} {f : Fault}, WellLexed used → spoils used f →
    ∀ rest : List Token, rule (used ++ rest) = .error f

/-! ## Values -/

theorem literal_eq_error {text : String} :
    literal text ts = .error f ↔ (∀ q, Rational.read text ≠ .ok q) ∧ f = .invalidNumber text := by
  unfold literal
  cases Rational.read text <;> simp [eq_comm]

theorem signed_append (negative : Bool) (text more : String) :
    signed negative text ++ more = signed negative (text ++ more) := by
  cases negative <;> simp [signed, String.append_assoc]

/-- Two numbers with a slash between them are read as one literal. -/
theorem literal_quotient_eq_error (negative : Bool) {t u : Token} {a b : Rat}
    (ha : Rational.WritesDecimal t.text.toList a) (hb : Rational.WritesDecimal u.text.toList b) :
    literal (signed negative t.text ++ "/" ++ u.text) ts = .error f ↔
      ¬ (Numeral.IsDigits t.text.toList ∧ Numeral.IsDigits u.text.toList ∧
        Numeral.value u.text.toList ≠ 0) ∧
      f = .invalidNumber (signed negative (t.text ++ "/" ++ u.text)) := by
  have hread : (∀ q, Rational.read (signed negative t.text ++ "/" ++ u.text) ≠ .ok q) ↔
      ¬ (Numeral.IsDigits t.text.toList ∧ Numeral.IsDigits u.text.toList ∧
        Numeral.value u.text.toList ≠ 0) := by
    simp only [signed_quotient, ne_eq, Rational.read_quotient negative ha hb]
    constructor
    · rintro h ⟨htop, hbottom, hzero⟩
      exact h _ ⟨htop, hbottom, hzero, rfl⟩
    · rintro h q ⟨htop, hbottom, hzero, -⟩
      exact h ⟨htop, hbottom, hzero⟩
  rw [literal_eq_error, hread, signed_append, signed_append]

theorem finishValue_spoilt {negative : Bool} {first : Token} (hts : WellLexed (first :: ts))
    (hfirst : first.kind = .number) (h : finishValue negative first ts = .error f)
    (hvalue : f.isShapeMismatch = false) :
    ∃ more rest text, ts = more ++ rest ∧ SpoilsMagnitude (first :: more) text ∧
      f = .invalidNumber (signed negative text) := by
  obtain ⟨a, ha⟩ := hts first List.mem_cons_self hfirst
  unfold finishValue at h
  split at h
  · have hread := (literal_eq_error.mp h).1
    rw [signed_eq] at hread
    exact absurd (Rational.read_decimal ha) (hread _)
  · rename_i slash us hnext
    obtain ⟨rfl, hslash, htouch⟩ := touching?_eq_some.mp hnext
    split at h
    · cases h
      simp [unexpected_isShapeMismatch] at hvalue
    · rename_i below us hnext
      obtain ⟨rfl, hbelow, htouch'⟩ := touching?_eq_some.mp hnext
      obtain ⟨b, hb⟩ := hts below (by simp) hbelow
      obtain ⟨hdigits, rfl⟩ := (literal_quotient_eq_error negative ha hb).mp h
      exact ⟨[slash, below], us, _, rfl,
        .mk hfirst hslash hbelow htouch htouch' hdigits, rfl⟩

theorem finishValue_of_spoilt {negative : Bool} {first : Token} {more : List Token} {text : String}
    (hts : WellLexed (first :: more)) (h : SpoilsMagnitude (first :: more) text)
    (rest : List Token) :
    finishValue negative first (more ++ rest) = .error (.invalidNumber (signed negative text)) := by
  cases h with
  | @mk _ slash below hfirst hslash hbelow htouch htouch' hdigits =>
    have hnext : touching? .slash first.span (slash :: below :: rest) =
        some (slash, below :: rest) := touching?_eq_some.mpr ⟨rfl, hslash, htouch⟩
    have hnext' : touching? .number slash.span (below :: rest) = some (below, rest) :=
      touching?_eq_some.mpr ⟨rfl, hbelow, htouch'⟩
    obtain ⟨a, ha⟩ := hts first (by simp) hfirst
    obtain ⟨b, hb⟩ := hts below (by simp) hbelow
    simp only [List.cons_append, List.nil_append, finishValue, hnext, hnext']
    exact (literal_quotient_eq_error negative ha hb).mpr ⟨hdigits, rfl⟩

theorem SpoilsMagnitude.exists_number {text : String} (h : SpoilsMagnitude ts text) :
    ∃ t more, ts = t :: more ∧ t.kind = .number := by
  cases h with
  | mk hkind => exact ⟨_, _, rfl, hkind⟩

theorem number_spoilt {first : Token} (hts : WellLexed (first :: ts))
    (hfirst : first.kind = .number) (h : finishValue false first ts = .error f)
    (hvalue : f.isShapeMismatch = false) : Begins SpoilsValue (first :: ts) f := by
  obtain ⟨more, rest, text, rfl, hspoils, rfl⟩ := finishValue_spoilt hts hfirst h hvalue
  exact ⟨first :: more, rest, rfl, .magnitude hspoils⟩

theorem signed_spoilt {sign first : Token} {us : List Token} (hts : WellLexed (sign :: ts))
    (hminus : sign.kind = .minus) (hnext : touching? .number sign.span ts = some (first, us))
    (h : finishValue true first us = .error f) (hvalue : f.isShapeMismatch = false) :
    Begins SpoilsValue (sign :: ts) f := by
  obtain ⟨rfl, hfirst, htouch⟩ := touching?_eq_some.mp hnext
  obtain ⟨more, rest, text, rfl, hspoils, rfl⟩ := finishValue_spoilt hts.tail hfirst h hvalue
  exact ⟨sign :: first :: more, rest, rfl, .negative hminus htouch hspoils⟩

/-- A rule that goes on from the first number, negative after a minus sign that touches it, fails
where a value is spoilt. -/
theorem SpoilsValue.complete {rule : List Token → Except Fault (Rat × List Token)}
    (hnumber : ∀ first ts, first.kind = .number →
      rule (first :: ts) = finishValue false first ts)
    (hminus : ∀ sign first ts more, sign.kind = .minus →
      touching? .number sign.span ts = some (first, more) →
      rule (sign :: ts) = finishValue true first more)
    {used : List Token} (hused : WellLexed used) (h : SpoilsValue used f) (rest : List Token) :
    rule (used ++ rest) = .error f := by
  cases h with
  | magnitude hm =>
    obtain ⟨t, more, rfl, hkind⟩ := hm.exists_number
    rw [List.cons_append, hnumber _ _ hkind]
    exact finishValue_of_spoilt hused hm rest
  | @negative sign t more text hsign htouch hm =>
    obtain ⟨_, _, heq, hkind⟩ := hm.exists_number
    cases heq
    have hnext : touching? .number sign.span (t :: (more ++ rest)) = some (t, more ++ rest) :=
      touching?_eq_some.mpr ⟨rfl, hkind, htouch⟩
    rw [List.cons_append, List.cons_append, hminus _ _ _ _ hsign hnext]
    exact finishValue_of_spoilt hused.tail hm rest

theorem detects_value : Detects value SpoilsValue where
  sound := by
    intro ts f hts h hvalue
    cases ts with
    | nil =>
      cases h
      simp [unexpected_isShapeMismatch] at hvalue
    | cons t ts =>
      simp only [value] at h
      split at h
      · rename_i hminus
        split at h
        · cases h
          simp [unexpected_isShapeMismatch] at hvalue
        · rename_i hnext
          exact signed_spoilt hts hminus hnext h hvalue
      · split at h
        · rename_i hnumber
          exact number_spoilt hts hnumber h hvalue
        · cases h
          simp [unexpected_isShapeMismatch] at hvalue
  complete := SpoilsValue.complete (fun _ _ h => by simp [value, h])
    (fun _ _ _ _ h ht => by simp [value, h, ht])

theorem detects_coefficient : Detects termCoefficient SpoilsValue where
  sound := by
    intro ts f hts h hvalue
    cases ts with
    | nil => cases h
    | cons t ts =>
      simp only [termCoefficient] at h
      split at h
      · rename_i hminus
        split at h
        · cases h
        · rename_i hnext
          exact signed_spoilt hts hminus hnext h hvalue
      · split at h
        · rename_i hnumber
          exact number_spoilt hts hnumber h hvalue
        · cases h
  complete := SpoilsValue.complete (fun _ _ h => by simp [termCoefficient, h])
    (fun _ _ _ _ h ht => by simp [termCoefficient, h, ht])

/-! ## Expressions -/

theorem malformedTerm_isShapeMismatch (ts : List Token) :
    (malformedTerm ts).isShapeMismatch = true := by
  cases ts <;> rfl

/-- Only the coefficient of a term can be spoilt. -/
theorem detects_term (negate : Bool) : Detects (term negate) SpoilsValue where
  sound := by
    intro ts f hts h hvalue
    rcases bind_eq_error.mp h with hcoefficient | ⟨⟨q, us⟩, -, hname⟩
    · exact detects_coefficient.sound hts hcoefficient hvalue
    · simp only at hname
      split at hname
      · cases hname
        simp [malformedTerm_isShapeMismatch] at hvalue
      · cases hname
  complete := by
    intro used f hused h rest
    exact bind_eq_error.mpr (.inl (detects_coefficient.complete hused h rest))

theorem termsFrom_joined {seen : List String} {negate negateNext : Bool} {more : List Token}
    {t : String × Rat} (ht : term negate ts = .ok (t, rest)) (hseen : t.1 ∉ seen)
    (hj : joint? rest = some (negateNext, more)) :
    termsFrom seen negate ts = termsFrom (t.1 :: seen) negateNext more >>= fun (later, rest) =>
      .ok (t :: later, rest) := by
  rw [termsFrom]
  grind

theorem termsFrom_repeated {seen : List String} {negate : Bool} {t : String × Rat}
    (ht : term negate ts = .ok (t, rest)) (hseen : t.1 ∈ seen) :
    termsFrom seen negate ts = .error (.duplicateVariable t.1) := by
  rw [termsFrom]
  grind

/-- Terms fail with the first of them, or because its variable has come before, or with those
after its joint. -/
theorem termsFrom_eq_error {seen : List String} {negate : Bool} :
    termsFrom seen negate ts = .error f ↔ term negate ts = .error f ∨
      ∃ t more, term negate ts = .ok (t, more) ∧
        ((t.1 ∈ seen ∧ f = .duplicateVariable t.1) ∨
          t.1 ∉ seen ∧ ∃ negateNext after, joint? more = some (negateNext, after) ∧
            termsFrom (t.1 :: seen) negateNext after = .error f) := by
  cases ht : term negate ts with
  | error g => simp [termsFrom_error ht]
  | ok r =>
    obtain ⟨t, more⟩ := r
    by_cases hseen : t.1 ∈ seen
    · simp [termsFrom_repeated ht hseen, hseen, eq_comm]
    · cases hj : joint? more with
      | none => simp [termsFrom_last ht hseen hj, hseen, hj]
      | some next =>
        obtain ⟨negateNext, after⟩ := next
        cases negateNext <;> simp [termsFrom_joined ht hseen hj, bind_eq_error, hseen, hj]

/-- Induction on the terms; their joints change no variable. -/
theorem SpoilsTerms.complete {seen : List String} {used : List Token} (h : SpoilsTerms seen used f)
    (hused : WellLexed used) (negate : Bool) (rest : List Token) :
    termsFrom seen negate (used ++ rest) = .error f := by
  induction h generalizing negate with
  | coefficient h =>
    exact termsFrom_eq_error.mpr (.inl ((detects_term negate).complete hused h rest))
  | repeated ht hseen =>
    exact termsFrom_eq_error.mpr (.inr ⟨_, _, term_complete negate ht rest, .inl ⟨hseen, rfl⟩⟩)
  | @later seen negateNext sign ts us t f ht hseen hsign _ ih =>
    rw [List.append_assoc, List.cons_append]
    refine termsFrom_eq_error.mpr (.inr ⟨_, _, term_complete negate ht _, .inr ⟨hseen, ?_⟩⟩)
    exact ⟨negateNext, us ++ rest, joint?_eq_some.mpr ⟨sign, rfl, hsign⟩,
      ih hused.right.tail negateNext⟩

theorem detects_terms (seen : List String) (negate : Bool) :
    Detects (termsFrom seen negate) (SpoilsTerms seen) where
  sound := by
    intro ts f hts h hvalue
    induction hn : ts.length using Nat.strong_induction_on generalizing ts seen negate with
    | _ n ih =>
    rcases termsFrom_eq_error.mp h with hterm | ⟨t, more, ht, hlater⟩
    · exact ((detects_term negate).sound hts hterm hvalue).imp .coefficient
    · have hshorter := term_length ht
      obtain ⟨used, u, rfl, hu, rfl⟩ := term_sound hts ht
      rcases hlater with ⟨hseen, rfl⟩ | ⟨hseen, negateNext, after, hj, hlater⟩
      · exact ⟨used, more, rfl, .repeated (t := u) hu hseen⟩
      · have hlt : after.length < n := hn ▸ Nat.lt_trans (joint?_length hj) hshorter
        obtain ⟨sign, rfl, hsign⟩ := joint?_eq_some.mp hj
        obtain ⟨used', rest, rfl, hspoils⟩ := ih _ hlt _ negateNext hts.right.tail hlater rfl
        exact ⟨used ++ sign :: used', rest, by simp, .later (t := u) hu hseen hsign hspoils⟩
  complete := fun hused h rest => h.complete hused negate rest

/-! ## Constraints and declarations -/

theorem isShapeMismatch_of_relation (h : relation ts = .error f) : f.isShapeMismatch = true := by
  cases ts with
  | nil =>
    cases h
    exact unexpected_isShapeMismatch _ _
  | cons t ts =>
    simp only [relation] at h
    split at h <;> cases h
    exact unexpected_isShapeMismatch _ _

theorem detects_constraint : Detects constraint SpoilsConstraint where
  sound := by
    intro ts f hts h hvalue
    rcases bind_eq_error.mp h with hterms | ⟨⟨terms, us⟩, hterms, hafter⟩
    · exact ((detects_terms [] false).sound hts hterms hvalue).imp .expression
    · obtain ⟨used, rfl, hwrites⟩ := recognizes_expression.sound hts hterms
      rcases bind_eq_error.mp hafter with hrelation | ⟨⟨r, us⟩, hrelation, hafter'⟩
      · exact absurd hvalue (by simp [isShapeMismatch_of_relation hrelation])
      · obtain ⟨symbol, rfl, hsymbol⟩ := relation_eq_ok.mp hrelation
        rcases bind_eq_error.mp hafter' with hrhs | ⟨_, -, ⟨⟩⟩
        obtain ⟨used', more, rfl, hspoils⟩ := detects_value.sound hts.right.tail hrhs hvalue
        exact ⟨used ++ symbol :: used', more, by simp, .value hwrites hsymbol hspoils⟩
  complete := by
    intro used f hused h rest
    cases h with
    | expression h =>
      exact bind_eq_error.mpr (.inl ((detects_terms [] false).complete hused h rest))
    | @value ts us symbol terms r f hwrites hsymbol h =>
      have hends : NotNext [.plus, .minus] (symbol :: (us ++ rest)) := by simp [hsymbol]
      have hrhs := detects_value.complete hused.right.tail h rest
      simp only [List.append_assoc, List.cons_append, constraint, bind, Except.bind,
        recognizes_expression.complete hwrites hends, relation_eq_ok.mpr ⟨symbol, rfl, hsymbol⟩,
        hrhs]

theorem isShapeMismatch_of_names (h : namesFrom ts = .error f) : f.isShapeMismatch = true := by
  induction ts using namesFrom.induct with
  | case1 ts hn =>
    rw [namesFrom] at h
    grind [unexpected_isShapeMismatch]
  | case2 ts name t more hn hcomma _ ih =>
    rw [namesFrom_cons hn, if_pos hcomma] at h
    rcases bind_eq_error.mp h with hmore | ⟨_, -, ⟨⟩⟩
    exact ih hmore
  | case3 ts name t more hn hcomma =>
    rw [namesFrom_cons hn, if_neg hcomma] at h
    cases h
  | case4 ts name hn =>
    obtain ⟨first, rfl, hfirst, rfl⟩ := variableName?_eq_some.mp hn
    rw [namesFrom_last hfirst (by simp [NotNext])] at h
    cases h

theorem isShapeMismatch_of_restriction (h : restriction ts = .error f) :
    f.isShapeMismatch = true := by
  cases ts with
  | nil =>
    cases h
    exact unexpected_isShapeMismatch _ _
  | cons t ts =>
    simp only [restriction] at h
    split at h
    · cases h
    · split at h <;> cases h
      exact unexpected_isShapeMismatch _ _

/-- Nothing in a declaration can be spoilt. -/
theorem isShapeMismatch_of_declaration (h : declaration ts = .error f) :
    f.isShapeMismatch = true := by
  rcases bind_eq_error.mp h with hnames | ⟨_, -, hafter⟩
  · exact isShapeMismatch_of_names hnames
  · rcases bind_eq_error.mp hafter with hrestriction | ⟨_, -, ⟨⟩⟩
    exact isShapeMismatch_of_restriction hrestriction

/-! ## Lines -/

theorem isShapeMismatch_of_expectEnd (h : expectEnd ts = .error f) : f.isShapeMismatch = true := by
  cases ts with
  | nil => cases h
  | cons t ts =>
    simp only [expectEnd] at h
    split at h <;> cases h
    exact unexpected_isShapeMismatch _ _

/-- A whole text is refused by the rule, or for what the rule leaves. -/
theorem rule_of_whole_error {rule : List Token → Except Fault (α × List Token)}
    (h : whole rule line = .error f) :
    rule (tokens line) = .error f ∨ f.isShapeMismatch = true := by
  rcases bind_eq_error.mp h with hrule | ⟨_, -, hafter⟩
  · exact .inl hrule
  · rcases bind_eq_error.mp hafter with hend | ⟨_, -, ⟨⟩⟩
    exact .inr (isShapeMismatch_of_expectEnd hend)

theorem isShapeMismatch_of_readDeclaration (h : readDeclaration line = .error f) :
    f.isShapeMismatch = true :=
  (rule_of_whole_error h).elim isShapeMismatch_of_declaration id

/-- What begins the tokens of a text and does not hold their end begins its body. -/
theorem Begins.body {spoils : List Token → Fault → Prop}
    (hinner : ∀ {used}, spoils used f → Inner used) (h : Begins spoils (tokens line) f) :
    Begins spoils (body line) f := by
  obtain ⟨used, more, hused, hspoils⟩ := h
  rw [tokens_eq_body] at hused
  rcases List.prefix_concat_iff.mp ⟨more, hused.symm⟩ with hall | ⟨more', hmore⟩
  · exact absurd (hinner hspoils) (by simp [hall])
  · exact ⟨used, more', hmore.symm, hspoils⟩

/-- The line begins like a constraint that a number or a variable spoils. -/
def Spoilt (line : List Char) (f : Fault) : Prop := Begins SpoilsConstraint (body line) f

theorem Spoilt.isValueFault (h : Spoilt line f) : IsValueFault f := by
  obtain ⟨_, _, -, hspoils⟩ := h
  exact hspoils.isValueFault

theorem Spoilt.readConstraint (h : Spoilt line f) : readConstraint line = .error f := by
  have hall := h.append [tokenAt .endOfText (Text.width line) []]
  rw [← tokens_eq_body] at hall
  obtain ⟨used, more, hused, hspoils⟩ := hall
  have hlexed : WellLexed used := (hused ▸ wellLexed_tokens line).left
  refine bind_eq_error.mpr (.inl ?_)
  rw [hused]
  exact detects_constraint.complete hlexed hspoils more

/-- The faults of a line as a constraint that are not of shape are those of what is spoilt. -/
theorem spoilt_iff :
    Spoilt line f ↔ readConstraint line = .error f ∧ f.isShapeMismatch = false := by
  constructor
  · intro h
    exact ⟨h.readConstraint, h.isValueFault.not_shapeMismatch⟩
  · rintro ⟨h, hvalue⟩
    rcases rule_of_whole_error h with hrule | hshape
    · exact (detects_constraint.sound (wellLexed_tokens line) hrule hvalue).body
        SpoilsConstraint.inner
    · simp [hshape] at hvalue

instance (line : List Char) : Decidable (∃ f, Spoilt line f) :=
  match h : readConstraint line with
  | .ok c => isFalse fun ⟨f, hf⟩ => by simp [hf.readConstraint] at h
  | .error f =>
    if hf : f.isShapeMismatch = false then isTrue ⟨f, spoilt_iff.mpr ⟨h, hf⟩⟩
    else isFalse fun ⟨g, hg⟩ => by
      obtain ⟨hread, hvalue⟩ := spoilt_iff.mp hg
      rw [h] at hread
      cases hread
      exact hf hvalue

theorem Draft.addLine_of_spoilt (d : Draft) (h : Spoilt line f) : d.addLine line = .error f := by
  obtain ⟨hread, hvalue⟩ := spoilt_iff.mp h
  simp only [addLine, hread, hvalue, Bool.false_eq_true, if_false]

/-- A line that is neither a constraint nor a declaration and in which nothing is spoilt is refused
as a whole. -/
theorem Draft.addLine_of_neither (d : Draft) (hconstraint : ¬ IsConstraint line)
    (hdeclaration : ¬ IsDeclaration line) (h : ∀ f, ¬ Spoilt line f) :
    d.addLine line = .error (.invalidLine (String.ofList (Text.trim line))) := by
  cases hc : Source.readConstraint line with
  | ok c => exact absurd ⟨c, hc⟩ hconstraint
  | error f =>
    cases he : readDeclaration line with
    | ok entries => exact absurd ⟨entries, he⟩ hdeclaration
    | error g =>
      have hf : f.isShapeMismatch = true := by
        simpa using fun hvalue => h f (spoilt_iff.mpr ⟨hc, hvalue⟩)
      simp only [addLine, hc, he, hf, isShapeMismatch_of_readDeclaration he, if_true]

/-- The tokens of the line are in the shape of a constraint. -/
def ConstraintShaped (line : List Char) : Prop := ShapedConstraint (body line)

/-- The tokens of the line are a declaration: no number stands in one, and a name can come again. -/
def DeclarationShaped (line : List Char) : Prop := ∃ entries, WritesDeclaration (body line) entries

theorem IsConstraint.shaped (h : IsConstraint line) : ConstraintShaped line := by
  obtain ⟨c, hc⟩ := h
  exact (readConstraint_eq_ok.mp hc).shaped

theorem declarationShaped_iff : DeclarationShaped line ↔ IsDeclaration line :=
  exists_congr fun _ => readDeclaration_eq_ok.symm

/-- A line in the shape of a constraint that is none is spoilt. -/
theorem ConstraintShaped.exists_spoilt (h : ConstraintShaped line) (hnot : ¬ IsConstraint line) :
    ∃ f, Spoilt line f := by
  have hlexed : WellLexed (body line) := (tokens_eq_body line ▸ wellLexed_tokens line).left
  rcases h.writes_or_spoils hlexed with ⟨c, hc⟩ | hspoilt
  · exact absurd ⟨c, readConstraint_eq_ok.mpr hc⟩ hnot
  · exact hspoilt

/-- A line below lines that are read. One which is neither in the shape of a constraint nor in that
of a declaration is refused as a whole precisely if it does not begin like a constraint that is
spoilt; if it does, and for each line in the shape of a constraint that is none, the number or the
variable that spoils it is reported. -/
theorem refused_lines {s : String} {i : Nat} {d : Draft}
    (hi : (Text.lines s.toList)[i]? = some line) (hshown : line.all Text.isBlank = false)
    (hpasses : Passes ((Text.lines s.toList).take i) d) :
    (¬ ConstraintShaped line → ¬ DeclarationShaped line →
      (readProgram s =
          .error ((Fault.invalidLine (String.ofList (Text.trim line))).atLine (i + 1)) ↔
        ∀ f, ¬ Spoilt line f) ∧
      ∀ f, Spoilt line f → IsValueFault f ∧ readProgram s = .error (f.atLine (i + 1))) ∧
    (ConstraintShaped line → ¬ IsConstraint line → ∃ f, IsValueFault f ∧ Spoilt line f ∧
      readConstraint line = .error f ∧ readProgram s = .error (f.atLine (i + 1))) := by
  have hfault : ∀ {f}, d.addLine line = .error f → readProgram s = .error (f.atLine (i + 1)) :=
    fun h => readProgramFrom_eq_error.mpr ⟨i, line, rfl, hi, hshown, .later hpasses h⟩
  have hspoilt : ∀ f, Spoilt line f →
      IsValueFault f ∧ readProgram s = .error (f.atLine (i + 1)) :=
    fun f h => ⟨h.isValueFault, hfault (d.addLine_of_spoilt h)⟩
  constructor
  · intro hconstraint hdeclaration
    refine ⟨⟨fun hinvalid f h => ?_, fun h => ?_⟩, hspoilt⟩
    · obtain ⟨hvalue, hread⟩ := hspoilt f h
      rw [hread] at hinvalid
      cases hinvalid
      rcases hvalue with ⟨_, ⟨⟩⟩ | ⟨_, ⟨⟩⟩
    · exact hfault (d.addLine_of_neither (fun h => hconstraint h.shaped)
        (fun h => hdeclaration (declarationShaped_iff.mpr h)) h)
  · intro hshaped hnot
    obtain ⟨f, h⟩ := hshaped.exists_spoilt hnot
    obtain ⟨hvalue, hread⟩ := hspoilt f h
    exact ⟨f, hvalue, h, h.readConstraint, hread⟩

/-- A line that does not end with a number is not in the shape of a constraint. -/
theorem not_constraintShaped (kind : TokenKind)
    (h : (body line).getLast?.map (·.kind) = some kind) (hkind : kind ≠ .number) :
    ¬ ConstraintShaped line := by
  intro hshaped
  obtain ⟨t, hlast, ht⟩ := ShapedConstraint.exists_last hshaped
  rw [hlast] at h
  exact hkind ((Option.some.inj h).symm.trans ht)

theorem passes_objective (line : List Char) {lines : List (List Char)}
    (hlines : visible lines = [line]) (h : (readObjective line).toOption.isSome = true) :
    Passes lines .empty := by
  obtain ⟨o, ho⟩ := Option.isSome_iff_exists.mp h
  exact ⟨line, [], o, hlines, toOption_eq_some.mp ho, by simp, (Draft.after_nil _).symm,
    List.nodup_nil⟩

/-- The line below the objective goes on after its value. -/
def beyondValue : String := "max z = x1\nx1 <= 3 x1"

/-- The one line is in neither shape and nothing is spoilt in it; the other is in the shape of a
constraint. -/
theorem refused_lines_beyondValue :
    (¬ ConstraintShaped "x1 <= 3 x1".toList ∧ ¬ DeclarationShaped "x1 <= 3 x1".toList ∧
      readProgram beyondValue = .error ((Fault.invalidLine "x1 <= 3 x1").atLine 2)) ∧
    (ConstraintShaped "x1 <= 3/0".toList ∧ ¬ IsConstraint "x1 <= 3/0".toList ∧
      ∃ f, IsValueFault f ∧ Spoilt "x1 <= 3/0".toList f ∧
        readConstraint "x1 <= 3/0".toList = .error f ∧
        readProgram zeroBelow = .error (f.atLine 3)) := by
  constructor
  · have hlines : Text.lines beyondValue.toList = ["max z = x1".toList, "x1 <= 3 x1".toList] := by
      decide +kernel
    have hpasses : Passes ((Text.lines beyondValue.toList).take 1) .empty :=
      passes_objective "max z = x1".toList (by decide +kernel) (by decide +kernel)
    have hconstraint : ¬ ConstraintShaped "x1 <= 3 x1".toList :=
      not_constraintShaped .name (by decide +kernel) (by decide)
    have hdeclaration : ¬ DeclarationShaped "x1 <= 3 x1".toList := by
      rw [declarationShaped_iff]
      decide +kernel
    have hfree : ∀ f, ¬ Spoilt "x1 <= 3 x1".toList f := not_exists.mp (by decide +kernel)
    obtain ⟨hneither, -⟩ :=
      refused_lines (i := 1) (by rw [hlines]; rfl) (by decide +kernel) hpasses
    exact ⟨hconstraint, hdeclaration, (hneither hconstraint hdeclaration).1.mpr hfree⟩
  · have hlines : Text.lines zeroBelow.toList =
        ["max z = x1".toList, [], "x1 <= 3/0".toList] := by decide +kernel
    have hpasses : Passes ((Text.lines zeroBelow.toList).take 2) .empty :=
      passes_objective "max z = x1".toList (by decide +kernel) (by decide +kernel)
    have hbody : body "x1 <= 3/0".toList =
        [⟨.name, ⟨0, 2⟩, "x1"⟩, ⟨.relation .atMost, ⟨3, 5⟩, "<="⟩, ⟨.number, ⟨6, 7⟩, "3"⟩,
          ⟨.slash, ⟨7, 8⟩, "/"⟩, ⟨.number, ⟨8, 9⟩, "0"⟩] := by decide +kernel
    have hshaped : ConstraintShaped "x1 <= 3/0".toList := by
      rw [ConstraintShaped, hbody]
      exact .mk (.mk .implicit ⟨rfl, by decide⟩) .none rfl
        (.magnitude (.quotient rfl rfl rfl rfl rfl))
    have hnot : ¬ IsConstraint "x1 <= 3/0".toList := by decide +kernel
    obtain ⟨-, hvalue⟩ :=
      refused_lines (i := 2) (by rw [hlines]; rfl) (by decide +kernel) hpasses
    exact ⟨hshaped, hnot, hvalue hshaped hnot⟩

/-- The line below the objective is in neither shape: no value follows its relation. -/
def noValue : String := "max z = x1\n3/0x1 <=\nx1 non-negative"

theorem not_refused_as_a_whole_noValue : ∃ d,
    (Text.lines noValue.toList)[1]? = some "3/0x1 <=".toList ∧
    "3/0x1 <=".toList.all Text.isBlank = false ∧
    Passes ((Text.lines noValue.toList).take 1) d ∧
    ¬ ConstraintShaped "3/0x1 <=".toList ∧ ¬ DeclarationShaped "3/0x1 <=".toList ∧
    readProgram noValue = .error ((Fault.invalidNumber "3/0").atLine 2) ∧
    readProgram noValue ≠ .error ((Fault.invalidLine "3/0x1 <=").atLine 2) := by
  have hlines : Text.lines noValue.toList =
      ["max z = x1".toList, "3/0x1 <=".toList, "x1 non-negative".toList] := by decide +kernel
  have hread : readProgram noValue = .error ((Fault.invalidNumber "3/0").atLine 2) := by
    decide +kernel
  refine ⟨.empty, by rw [hlines]; rfl, by decide +kernel, ?_, ?_, ?_, hread, ?_⟩
  · exact passes_objective "max z = x1".toList (by decide +kernel) (by decide +kernel)
  · exact not_constraintShaped (.relation .atMost) (by decide +kernel) (by decide)
  · rw [declarationShaped_iff]
    decide +kernel
  · rw [hread]
    decide

end ExactSimplex.Source
