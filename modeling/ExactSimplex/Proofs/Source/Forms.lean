import ExactSimplex.Proofs.Source.Derivation
import ExactSimplex.Proofs.Source.Lines

/-! The forms of a line, read from a whole text. What stands before the end of the text is in the
form precisely when its rule reads it, and what the rule returns is what is written there. -/

namespace ExactSimplex.Source

variable {α : Type} {ts rest : List Token}

theorem recognizes_expression :
    Recognizes expression WritesExpression (NotNext [.plus, .minus]) where
  sound := by
    intro ts rest terms hts h
    obtain ⟨used, us, u, later, rfl, hu, hlater, rfl, hnodup, -⟩ := termsFrom_sound hts h
    exact ⟨used ++ us, rfl, .mk hu hlater hnodup⟩
  complete := by
    intro used rest terms h hrest
    cases h with
    | mk ht hlater hnodup =>
      rw [List.append_assoc]
      exact termsFrom_complete false ht hlater hnodup (by simp) hrest

/-! ## Words and symbols -/

theorem direction_eq_ok {d : Direction} :
    direction ts = .ok (d, rest) ↔ ∃ t : Token, ts = t :: rest ∧ t.kind = directionKind d := by
  cases ts with
  | nil => simp [direction]
  | cons t ts =>
    by_cases hmin : t.kind = .min
    · cases d <;> simp [direction, directionKind, hmin]
    · by_cases hmax : t.kind = .max
      · cases d <;> simp [direction, directionKind, hmax]
      · cases d <;> simp [direction, directionKind, hmin, hmax]

theorem relation?_eq_some {kind : TokenKind} {r : Relation} :
    kind.relation? = some r ↔ kind = .relation r := by
  cases kind <;> simp [TokenKind.relation?]

theorem relation_eq_ok {r : Relation} :
    relation ts = .ok (r, rest) ↔ ∃ t : Token, ts = t :: rest ∧ t.kind = .relation r := by
  cases ts with
  | nil => simp [relation]
  | cons t ts =>
    simp only [relation, List.cons.injEq, ← relation?_eq_some]
    cases h : t.kind.relation? with
    | none => simp [h]
    | some s => simp [h, and_comm]

theorem equals_eq_ok :
    equals ts = .ok ((), rest) ↔ ∃ t : Token, ts = t :: rest ∧ t.kind = .relation .equal := by
  cases ts with
  | nil => simp [equals]
  | cons t ts => by_cases h : t.kind = .relation .equal <;> simp [equals, h]

theorem restriction_eq_ok {r : Restriction} :
    restriction ts = .ok (r, rest) ↔ ∃ t : Token, ts = t :: rest ∧ t.kind = restrictionKind r := by
  cases ts with
  | nil => simp [restriction]
  | cons t ts =>
    by_cases hnon : t.kind = .nonNegative
    · cases r <;> simp [restriction, restrictionKind, hnon]
    · by_cases hfree : t.kind = .unrestricted
      · cases r <;> simp [restriction, restrictionKind, hfree]
      · cases r <;> simp [restriction, restrictionKind, hnon, hfree]

/-! ## Objectives and constraints -/

theorem WritesExpression.nodup {terms : List (String × Rat)} (h : WritesExpression ts terms) :
    (terms.map (·.1)).Nodup := by
  cases h with
  | mk _ _ hnodup => exact hnodup

theorem WritesObjective.nodup {d : Direction} {goal : String} {terms : List (String × Rat)}
    (h : WritesObjective ts d goal terms) : (terms.map (·.1)).Nodup := by
  cases h with
  | mk _ _ _ hterms => exact hterms.nodup

theorem WritesConstraint.nodup {r : Relation} {q : Rat} {terms : List (String × Rat)}
    (h : WritesConstraint ts terms r q) : (terms.map (·.1)).Nodup := by
  cases h with
  | mk hterms _ _ => exact hterms.nodup

/-- The tokens write terms, and the form collects them. -/
def DenotesExpression (ts : List Token) (e : LinearForm) : Prop :=
  ∃ terms, WritesExpression ts terms ∧ e.Collects terms

/-- The tokens write the objective, and what they mention are the variables of its terms. -/
def DenotesObjective (ts : List Token) (o : Mentioning Objective) : Prop :=
  ∃ terms, WritesObjective ts o.value.direction o.value.goal terms ∧
    o.value.expression.Collects terms ∧ o.mentioned = terms.map (·.1)

/-- The tokens write the constraint, and what they mention are the variables of its terms. -/
def DenotesConstraint (ts : List Token) (c : Mentioning Constraint) : Prop :=
  ∃ terms, WritesConstraint ts terms c.value.relation c.value.rhs ∧
    c.value.expression.Collects terms ∧ c.mentioned = terms.map (·.1)

theorem recognizes_objective :
    Recognizes objective DenotesObjective (NotNext [.plus, .minus]) where
  sound := by
    intro ts rest o hts h
    obtain ⟨⟨d, us⟩, hdirection, h⟩ := bind_eq_ok.mp h
    simp only at h
    split at h
    · cases h
    · rename_i goal us hnext
      obtain ⟨⟨⟨⟩, us⟩, hequals, h⟩ := bind_eq_ok.mp h
      obtain ⟨⟨terms, us⟩, hterms, h⟩ := bind_eq_ok.mp h
      cases h
      obtain ⟨word, rfl, hword⟩ := direction_eq_ok.mp hdirection
      obtain ⟨name, rfl, hname, rfl⟩ := variableName?_eq_some.mp hnext
      obtain ⟨sign, rfl, hsign⟩ := equals_eq_ok.mp hequals
      obtain ⟨used, rfl, hwrites⟩ := recognizes_expression.sound hts.tail.tail.tail hterms
      exact ⟨word :: name :: sign :: used, rfl, terms, .mk hword hname hsign hwrites,
        LinearForm.collects_ofTerms hwrites.nodup, rfl⟩
  complete := by
    rintro used rest ⟨⟨d, goal, e⟩, mentioned⟩ ⟨terms, hwrites, hcollects, hmentioned⟩ hrest
    cases hwrites with
    | @mk word name sign ts d terms hword hname hsign hterms =>
      obtain rfl := (LinearForm.collects_iff hterms.nodup).mp hcollects
      obtain rfl := hmentioned
      have hgoal : variableName? (name :: sign :: (ts ++ rest)) =
          some (name.text, sign :: (ts ++ rest)) :=
        variableName?_eq_some.mpr ⟨name, rfl, hname, rfl⟩
      simp only [List.cons_append, objective, bind, Except.bind,
        direction_eq_ok.mpr ⟨word, rfl, hword⟩, hgoal, equals_eq_ok.mpr ⟨sign, rfl, hsign⟩,
        recognizes_expression.complete hterms hrest]

theorem recognizes_constraint : Recognizes constraint DenotesConstraint (NotNext [.slash]) where
  sound := by
    intro ts rest c hts h
    obtain ⟨⟨terms, us⟩, hterms, h⟩ := bind_eq_ok.mp h
    obtain ⟨⟨r, us⟩, hrelation, h⟩ := bind_eq_ok.mp h
    obtain ⟨⟨q, us⟩, hvalue, h⟩ := bind_eq_ok.mp h
    cases h
    obtain ⟨used, rfl, hwrites⟩ := recognizes_expression.sound hts hterms
    obtain ⟨symbol, rfl, hsymbol⟩ := relation_eq_ok.mp hrelation
    obtain ⟨more, rfl, hmore⟩ := recognizes_value.sound hts.right.tail hvalue
    exact ⟨used ++ symbol :: more, by simp, terms, .mk hwrites hsymbol hmore,
      LinearForm.collects_ofTerms hwrites.nodup, rfl⟩
  complete := by
    rintro used rest ⟨⟨e, r, q⟩, mentioned⟩ ⟨terms, hwrites, hcollects, hmentioned⟩ hrest
    cases hwrites with
    | @mk ts us symbol terms r q hterms hsymbol hvalue =>
      obtain rfl := (LinearForm.collects_iff hterms.nodup).mp hcollects
      obtain rfl := hmentioned
      have hends : NotNext [.plus, .minus] (symbol :: (us ++ rest)) := by simp [hsymbol]
      simp only [List.append_assoc, List.cons_append, constraint, bind, Except.bind,
        recognizes_expression.complete hterms hends, relation_eq_ok.mpr ⟨symbol, rfl, hsymbol⟩,
        recognizes_value.complete hvalue hrest]

/-! ## Declarations -/

theorem namesFrom_last {t : Token} (ht : t.IsName) (hrest : NotNext [.comma] rest) :
    namesFrom (t :: rest) = .ok ([t.text], rest) := by
  have hnext : variableName? (t :: rest) = some (t.text, rest) :=
    variableName?_eq_some.mpr ⟨t, rfl, ht, rfl⟩
  cases rest with
  | nil =>
    rw [namesFrom]
    grind
  | cons u us => rw [namesFrom_cons hnext, if_neg (by simpa using hrest)]

theorem recognizes_names : Recognizes namesFrom WritesNames (NotNext [.comma]) where
  sound := by
    intro ts rest names hts h
    clear hts
    induction ts using namesFrom.induct generalizing names rest with
    | case1 ts hn =>
      rw [namesFrom] at h
      grind
    | case2 ts name t more hn hcomma _ ih =>
      rw [namesFrom_cons hn, if_pos hcomma] at h
      obtain ⟨⟨later, left⟩, hlater, h⟩ := bind_eq_ok.mp h
      cases h
      obtain ⟨first, rfl, hfirst, rfl⟩ := variableName?_eq_some.mp hn
      obtain ⟨used, rfl, hused⟩ := ih hlater
      exact ⟨first :: t :: used, rfl, .more hfirst hcomma hused⟩
    | case3 ts name t more hn hcomma =>
      rw [namesFrom_cons hn, if_neg hcomma] at h
      cases h
      obtain ⟨first, rfl, hfirst, rfl⟩ := variableName?_eq_some.mp hn
      exact ⟨[first], rfl, .last hfirst⟩
    | case4 ts name hn =>
      obtain ⟨first, rfl, hfirst, rfl⟩ := variableName?_eq_some.mp hn
      rw [namesFrom_last hfirst (by simp [NotNext])] at h
      cases h
      exact ⟨[first], rfl, .last hfirst⟩
  complete := by
    intro used rest names h hrest
    induction h with
    | last ht => exact namesFrom_last ht hrest
    | @more t comma ts names ht hcomma hnames ih =>
      have hnext : variableName? (t :: comma :: (ts ++ rest)) =
          some (t.text, comma :: (ts ++ rest)) := variableName?_eq_some.mpr ⟨t, rfl, ht, rfl⟩
      simp only [List.cons_append, namesFrom_cons hnext, if_pos hcomma, ih, bind, Except.bind]

theorem recognizes_declaration :
    Recognizes declaration WritesDeclaration (fun _ => True) where
  sound := by
    intro ts rest entries hts h
    obtain ⟨⟨names, us⟩, hnames, h⟩ := bind_eq_ok.mp h
    obtain ⟨⟨r, us⟩, hrestriction, h⟩ := bind_eq_ok.mp h
    cases h
    obtain ⟨used, rfl, hwrites⟩ := recognizes_names.sound hts hnames
    obtain ⟨word, rfl, hword⟩ := restriction_eq_ok.mp hrestriction
    exact ⟨used ++ [word], by simp, .mk hwrites hword⟩
  complete := by
    intro used rest entries h _
    cases h with
    | @mk ts word names r hnames hword =>
      have hends : NotNext [.comma] (word :: rest) := by cases r <;> simp [hword, restrictionKind]
      simp only [List.append_assoc, List.cons_append, List.nil_append, declaration, bind,
        Except.bind, recognizes_names.complete hnames hends,
        restriction_eq_ok.mpr ⟨word, rfl, hword⟩]

/-! ## Whole texts -/

/-- None of the tokens ends the text. -/
def Inner (ts : List Token) : Prop := ∀ t ∈ ts, t.kind ≠ .endOfText

@[simp] theorem inner_nil : Inner [] := by simp [Inner]

@[simp] theorem inner_cons {t : Token} : Inner (t :: ts) ↔ t.kind ≠ .endOfText ∧ Inner ts := by
  simp [Inner]

@[simp] theorem inner_append {us : List Token} : Inner (ts ++ us) ↔ Inner ts ∧ Inner us := by
  simp [Inner, or_imp, forall_and]

section

variable {q : Rat} {terms : List (String × Rat)}

theorem WritesMagnitude.inner (h : WritesMagnitude ts q) : Inner ts := by
  cases h <;> simp_all

theorem WritesValue.inner (h : WritesValue ts q) : Inner ts := by
  cases h with
  | magnitude hm => exact hm.inner
  | negative hsign _ hm => simp only [inner_cons, hsign]; exact ⟨by simp, inner_cons.mp hm.inner⟩

theorem WritesCoefficient.inner (h : WritesCoefficient ts q) : Inner ts := by
  cases h with
  | implicit => simp
  | sign hsign => simp [hsign]
  | value hvalue => exact hvalue.inner

theorem WritesTerm.inner {t : String × Rat} (h : WritesTerm ts t) : Inner ts := by
  cases h with
  | mk hcoefficient hname => simp [hcoefficient.inner, hname.1]

theorem WritesLater.inner (h : WritesLater ts terms) : Inner ts := by
  induction h with
  | none => simp
  | @joined negate _ _ _ _ _ hsign ht _ ih => cases negate <;> simp [hsign, ht.inner, ih]

theorem WritesExpression.inner (h : WritesExpression ts terms) : Inner ts := by
  cases h with
  | mk ht hlater _ => simp [ht.inner, hlater.inner]

theorem DenotesObjective.inner {o : Mentioning Objective} (h : DenotesObjective ts o) :
    Inner ts := by
  obtain ⟨terms, hwrites, -, -⟩ := h
  generalize o.value.direction = d, o.value.goal = goal at hwrites
  cases hwrites with
  | mk hword hgoal hequals hterms =>
    cases d <;> simp [hword, hgoal.1, hequals, hterms.inner, directionKind]

theorem DenotesConstraint.inner {c : Mentioning Constraint} (h : DenotesConstraint ts c) :
    Inner ts := by
  obtain ⟨_, ⟨hterms, hsymbol, hvalue⟩, -, -⟩ := h
  simp [hterms.inner, hsymbol, hvalue.inner]

theorem WritesNames.inner {names : List String} (h : WritesNames ts names) : Inner ts := by
  induction h with
  | last ht => simp [ht.1]
  | more ht hcomma _ ih => simp [ht.1, hcomma, ih]

theorem WritesDeclaration.inner {entries : List (String × Restriction)}
    (h : WritesDeclaration ts entries) : Inner ts := by
  cases h with
  | @mk _ _ _ r hnames hword => cases r <;> simp [hnames.inner, hword, restrictionKind]

end

/-- What is read up to the end of the text is all that stands before its end. -/
theorem eq_body_of_expectEnd {text : List Char} {used : List Token} (hused : Inner used)
    (h : tokens text = used ++ rest) (hend : expectEnd rest = .ok ()) : used = body text := by
  rw [tokens_eq_body] at h
  rcases List.append_eq_append_iff.mp h with ⟨more, rfl, hmore⟩ | ⟨more, hbody, rfl⟩
  · cases more with
    | nil => simp
    | cons t more =>
      obtain rfl : tokenAt .endOfText (Text.width text) [] = t := (List.cons.inj hmore).1
      simp at hused
  · cases more with
    | nil => simpa using hbody.symm
    | cons t more =>
      have hmem : t ∈ body text := by simp [hbody]
      have ht := ne_endOfText_of_mem_body hmem
      simp [expectEnd, ht] at hend

theorem Recognizes.whole_eq_ok {rule : List Token → Except Fault (α × List Token)}
    {writes : List Token → α → Prop} {follow : List Token → Prop}
    (h : Recognizes rule writes follow) (hinner : ∀ {ts a}, writes ts a → Inner ts)
    (hfollow : ∀ pos, follow [tokenAt .endOfText pos []]) {text : List Char} {a : α} :
    whole rule text = .ok a ↔ writes (body text) a := by
  constructor
  · intro hwhole
    obtain ⟨⟨b, rest⟩, hrule, hwhole⟩ := bind_eq_ok.mp hwhole
    obtain ⟨⟨⟩, hend, hb⟩ := bind_eq_ok.mp hwhole
    cases hb
    obtain ⟨used, hused, hwrites⟩ := h.sound (wellLexed_tokens text) hrule
    rwa [eq_body_of_expectEnd (hinner hwrites) hused hend] at hwrites
  · intro hwrites
    rw [whole, tokens_eq_body, h.complete hwrites (hfollow _)]
    rfl

theorem readCoefficient_eq_ok {text : List Char} {q : Rat} :
    readCoefficient text = .ok q ↔ WritesCoefficient (body text) q :=
  recognizes_coefficient.whole_eq_ok WritesCoefficient.inner fun _ => by simp

theorem readExpression_eq_ok {text : List Char} {e : LinearForm} :
    readExpression text = .ok e ↔ DenotesExpression (body text) e := by
  rw [readExpression, map_eq_ok]
  refine exists_congr fun terms => ?_
  rw [recognizes_expression.whole_eq_ok WritesExpression.inner fun _ => by simp]
  exact and_congr_right fun h => by rw [LinearForm.collects_iff h.nodup, eq_comm]

theorem readObjective_eq_ok {text : List Char} {o : Mentioning Objective} :
    readObjective text = .ok o ↔ DenotesObjective (body text) o :=
  recognizes_objective.whole_eq_ok DenotesObjective.inner fun _ => by simp

theorem readConstraint_eq_ok {text : List Char} {c : Mentioning Constraint} :
    readConstraint text = .ok c ↔ DenotesConstraint (body text) c :=
  recognizes_constraint.whole_eq_ok DenotesConstraint.inner fun _ => by simp

theorem readDeclaration_eq_ok {text : List Char} {entries : List (String × Restriction)} :
    readDeclaration text = .ok entries ↔ WritesDeclaration (body text) entries :=
  recognizes_declaration.whole_eq_ok WritesDeclaration.inner fun _ => trivial

/-- The rules read precisely what the grammar derives: the tokens of a text are those of its body
and then its end, and on the body each rule and its production agree on what is written. -/
theorem read_exactly (text : List Char) :
    tokens text = body text ++ [tokenAt .endOfText (Text.width text) []] ∧
    (∀ q, readCoefficient text = .ok q ↔ WritesCoefficient (body text) q) ∧
    (∀ e, readExpression text = .ok e ↔ DenotesExpression (body text) e) ∧
    (∀ o, readObjective text = .ok o ↔ DenotesObjective (body text) o) ∧
    (∀ c, readConstraint text = .ok c ↔ DenotesConstraint (body text) c) ∧
    (∀ entries, readDeclaration text = .ok entries ↔ WritesDeclaration (body text) entries) :=
  ⟨tokens_eq_body text, fun _ => readCoefficient_eq_ok, fun _ => readExpression_eq_ok,
    fun _ => readObjective_eq_ok, fun _ => readConstraint_eq_ok, fun _ => readDeclaration_eq_ok⟩

end ExactSimplex.Source
