import ExactSimplex.LinearForm.Text
import ExactSimplex.Proofs.Rational.Literal
import ExactSimplex.Proofs.Source.Tokens
import ExactSimplex.Source.Rule

/-! Numbers and expressions are read back from their texts. A rule reads a text when, before
whatever may follow it, the rule returns what the text writes and leaves the tokens of what
follows. The terms of an expression are read one by one; each later one brings its own joint. -/

namespace ExactSimplex.Source

/-- Before a text that `follow` allows, the rule reads `value` from `text` and nothing else. -/
def Reads {α : Type} (rule : List Token → Except Fault (α × List Token)) (text : List Char)
    (value : α) (follow : List Char → Prop) : Prop :=
  ∀ pos rest, follow rest →
    rule (tokensFrom pos (text ++ rest)) = .ok (value, tokensFrom (pos + Text.width text) rest)

/-! ## Names -/

/-- A variable's name comes first and ends there. -/
def OpensName (rest : List Char) : Prop :=
  ∃ name more, rest = name ++ more ∧ Variable.isName name = true ∧ Stops Char.isAlphanum more

theorem OpensName.exists_token {rest : List Char} (h : OpensName rest) (pos : Nat) :
    ∃ t ts, tokensFrom pos rest = t :: ts ∧ t.kind = .name := by
  obtain ⟨name, more, rfl, hname, hmore⟩ := h
  exact ⟨_, _, (lexesTo_name hname hmore).tokensFrom_eq pos, rfl⟩

theorem variableName?_text {name : String} (h : Variable.isName name.toList = true)
    {rest : List Char} (hr : Stops Char.isAlphanum rest) (pos : Nat) :
    variableName? (tokensFrom pos (name.toList ++ rest)) =
      some (name, tokensFrom (pos + Text.width name.toList) rest) := by
  rw [(lexesTo_name h hr).tokensFrom_eq]
  simp [variableName?, tokenAt, h]

/-! ## Numbers -/

/-- A token touches the one that is cut off right before it. -/
theorem touching?_tokenAt (before kind : TokenKind) (pos : Nat) (text next : List Char)
    (ts : List Token) :
    touching? kind (tokenAt before pos text).span
      (tokenAt kind (pos + Text.width text) next :: ts) =
        some (tokenAt kind (pos + Text.width text) next, ts) := by
  simp [touching?, tokenAt, Span.touches]

/-- Nothing that follows can be part of a number. -/
structure EndsNumber (rest : List Char) : Prop where
  digit : Stops Char.isDigit rest
  point : Stops (· == '.') rest
  slash : ∀ span pos, touching? .slash span (tokensFrom pos rest) = none

theorem EndsNumber.nil : EndsNumber [] :=
  ⟨stops_nil _, stops_nil _, fun span pos => by simp [tokensFrom_nil, touching?, tokenAt]⟩

theorem OpensName.endsNumber {rest : List Char} (h : OpensName rest) : EndsNumber rest := by
  have hslash : ∀ span pos, touching? .slash span (tokensFrom pos rest) = none := by
    intro span pos
    obtain ⟨t, ts, hts, hkind⟩ := h.exists_token pos
    simp [hts, touching?, hkind]
  obtain ⟨name, more, rfl, hname, -⟩ := h
  cases name with
  | nil => cases hname
  | cons c ds =>
    simp only [Variable.isName, Bool.and_eq_true] at hname
    refine ⟨by simp [Text.isDigit_of_isAlpha hname.1], ?_, hslash⟩
    have hc : c ≠ '.' := by rintro rfl; exact absurd hname.1 (by decide)
    simpa using hc

theorem signed_ofList (negative : Bool) (cs : List Char) :
    signed negative (String.ofList cs) = String.ofList (Rational.minusIf negative ++ cs) := by
  cases negative with
  | true => rw [signed, if_pos rfl, Rational.minusIf, if_pos rfl, String.ofList_append]
  | false => rfl

theorem literal_eq_ok {text : String} {q : Rat} (h : Rational.read text = .ok q)
    (ts : List Token) : literal text ts = .ok (q, ts) := by
  rw [literal, h]

theorem lexesTo_toDigits (n : Nat) (rest : List Char) (hr : Stops Char.isDigit rest)
    (hp : Stops (· == '.') rest) : LexesTo .number (Nat.toDigits 10 n) rest :=
  lexesTo_digits Nat.toDigits_ne_nil (fun _ => Rational.isDigit_of_mem_digits) hr hp

/-- The digits of a fraction begin with a number, from which the fraction is finished. -/
theorem exists_first_number (negative : Bool) {q : Rat} (hq : 0 ≤ q) {rest : List Char}
    (hr : EndsNumber rest) (pos : Nat) :
    ∃ first ts, tokensFrom pos (Rational.magnitude q ++ rest) = first :: ts ∧
      first.kind = .number ∧ first.span.start = pos ∧
      finishValue negative first ts = .ok (if negative then -q else q,
        tokensFrom (pos + Text.width (Rational.magnitude q)) rest) := by
  have hread := Rational.read_minusIf_magnitude negative hq
  by_cases hd : q.den = 1
  -- An integer is one token, and no slash touches it.
  · have hmag : Rational.magnitude q = Nat.toDigits 10 q.num.natAbs := by
      simp [Rational.magnitude, hd]
    rw [hmag] at hread ⊢
    refine ⟨_, _, (lexesTo_toDigits _ _ hr.digit hr.point).tokensFrom_eq pos, rfl, rfl, ?_⟩
    simp only [finishValue, hr.slash, tokenAt, signed_ofList]
    exact literal_eq_ok hread _
  -- Any other fraction is three tokens without a gap between them.
  · have hmag : Rational.magnitude q =
        Nat.toDigits 10 q.num.natAbs ++ (['/'] ++ Nat.toDigits 10 q.den) := by
      simp [Rational.magnitude, hd]
    have hfirst := lexesTo_toDigits q.num.natAbs (['/'] ++ (Nat.toDigits 10 q.den ++ rest))
      (by simp) (by simp)
    have hslash := lexesTo_slash (Nat.toDigits 10 q.den ++ rest)
    have hlast := lexesTo_toDigits q.den rest hr.digit hr.point
    rw [hmag, List.append_assoc, List.append_assoc, hfirst.tokensFrom_eq]
    refine ⟨_, _, rfl, rfl, rfl, ?_⟩
    rw [hslash.tokensFrom_eq, hlast.tokensFrom_eq]
    have htext : signed negative (String.ofList (Nat.toDigits 10 q.num.natAbs)) ++ "/" ++
        String.ofList (Nat.toDigits 10 q.den) =
          String.ofList (Rational.minusIf negative ++ Rational.magnitude q) := by
      rw [signed_ofList, hmag, show "/" = String.ofList ['/'] from rfl]
      simp only [← String.ofList_append, List.append_assoc]
    simp only [finishValue, touching?_tokenAt, tokenAt_text, htext, literal_eq_ok hread,
      Text.width_append, ← Nat.add_assoc]

/-- A rule that goes on from the first number, negative after a minus sign that touches it,
reads the text of a fraction. -/
theorem reads_text {rule : List Token → Except Fault (Rat × List Token)}
    (hnumber : ∀ first ts, first.kind = .number →
      rule (first :: ts) = finishValue false first ts)
    (hminus : ∀ sign first ts more, sign.kind = .minus →
      touching? .number sign.span ts = some (first, more) →
      rule (sign :: ts) = finishValue true first more) (q : Rat) :
    Reads rule (Rational.text q).toList q EndsNumber := by
  intro pos rest hr
  rw [Rational.text_toList]
  by_cases hq : q < 0
  · obtain ⟨first, ts, hts, hkind, hstart, hfinish⟩ :=
      exists_first_number true (q := -q) (by grind) hr (pos + Text.width ['-'])
    rw [Rational.magnitude_neg] at hts hfinish
    have htouch : touching? .number (tokenAt .minus pos ['-']).span (first :: ts) =
        some (first, ts) := by simp [touching?, hkind, hstart, tokenAt, Span.touches]
    simp only [hq, decide_true, Rational.minusIf, if_true, List.append_assoc,
      (lexesTo_minus _).tokensFrom_eq, hts]
    rw [hminus _ _ _ _ rfl htouch, hfinish]
    simp [Nat.add_assoc]
  · obtain ⟨first, ts, hts, hkind, -, hfinish⟩ :=
      exists_first_number false (Rat.not_lt.mp hq) hr pos
    simp [hq, Rational.minusIf, hts, hnumber _ _ hkind, hfinish]

theorem reads_value (q : Rat) : Reads value (Rational.text q).toList q EndsNumber :=
  reads_text (fun _ _ h => by simp [value, h]) (fun _ _ _ _ h ht => by simp [value, h, ht]) q

/-! ## Terms -/

theorem reads_coefficient (q : Rat) :
    Reads termCoefficient (Rational.text q).toList q EndsNumber :=
  reads_text (fun _ _ h => by simp [termCoefficient, h])
    (fun _ _ _ _ h ht => by simp [termCoefficient, h, ht]) q

/-- How a coefficient is written before a variable is how it is read there. -/
theorem reads_termCoefficient (q : Rat) :
    Reads termCoefficient (Rational.termText q).toList q OpensName := by
  intro pos rest hr
  by_cases h1 : q = 1
  · obtain ⟨t, ts, hts, hkind⟩ := hr.exists_token pos
    simp [h1, Rational.termText, hts, termCoefficient, hkind]
  by_cases h2 : q = -1
  · obtain ⟨t, ts, hts, hkind⟩ := hr.exists_token (pos + Text.width ['-'])
    have htext : (Rational.termText q).toList = ['-'] := by
      simp [Rational.termText, h2, show ¬(-1 : Rat) = 1 by decide]
    rw [htext, (lexesTo_minus _).tokensFrom_eq, hts]
    simp [termCoefficient, touching?, hkind, h2]
  · have htext : Rational.termText q = Rational.text q := by simp [Rational.termText, h1, h2]
    rw [htext]
    exact reads_coefficient q pos rest hr.endsNumber

theorem reads_term (negate : Bool) (q : Rat) {name : String}
    (h : Variable.isName name.toList = true) :
    Reads (term negate) ((Rational.termText q).toList ++ name.toList)
      (name, if negate then -q else q) (Stops Char.isAlphanum) := by
  intro pos rest hr
  have hcoefficient := reads_termCoefficient q pos _ ⟨_, rest, rfl, h, hr⟩
  rw [List.append_assoc, term, hcoefficient]
  simp only [bind, Except.bind, variableName?_text h hr, Text.width_append, Nat.add_assoc]

/-! ## Expressions -/

/-- Nothing that follows belongs to the expression: neither to its last name nor as a joint. -/
structure EndsTerms (rest : List Char) : Prop where
  name : Stops Char.isAlphanum rest
  joint : ∀ pos, joint? (tokensFrom pos rest) = none

theorem EndsTerms.nil : EndsTerms [] :=
  ⟨stops_nil _, fun pos => by simp [tokensFrom_nil, joint?]⟩

/-- The sign between two terms, with its spaces. -/
def jointText (negate : Bool) : List Char := if negate then [' ', '-', ' '] else [' ', '+', ' ']

theorem joint?_text (negate : Bool) (pos : Nat) (rest : List Char) :
    joint? (tokensFrom pos (jointText negate ++ rest)) =
      some (negate, tokensFrom (pos + Text.width (jointText negate)) rest) := by
  cases negate with
  | true =>
    rw [show jointText true ++ rest = ' ' :: (['-'] ++ ' ' :: rest) from rfl, tokensFrom_space,
      (lexesTo_minus _).tokensFrom_eq, tokensFrom_space]
    rfl
  | false =>
    rw [show jointText false ++ rest = ' ' :: (['+'] ++ ' ' :: rest) from rfl, tokensFrom_space,
      (lexesTo_plus _).tokensFrom_eq, tokensFrom_space]
    rfl

/-- A later term is a joint and then a term that the joint may negate. -/
theorem exists_laterTermText (t : String × Rat) :
    ∃ (negate : Bool) (q : Rat), (if negate then -q else q) = t.2 ∧
      (LinearForm.laterTermText t).toList =
        jointText negate ++ ((Rational.termText q).toList ++ t.1.toList) := by
  by_cases hq : t.2 < 0
  · have habs : t.2.abs = -t.2 := by simp [Rat.abs, Rat.not_le.mpr hq]
    exact ⟨true, -t.2, by simp, by simp [LinearForm.laterTermText, hq, habs, jointText]⟩
  · exact ⟨false, t.2, rfl, by simp [LinearForm.laterTermText, hq, jointText]⟩

theorem termsFrom_error {seen : List String} {negate : Bool} {ts : List Token} {f : Fault}
    (h : term negate ts = .error f) : termsFrom seen negate ts = .error f := by
  rw [termsFrom]
  grind

theorem termsFrom_last {seen : List String} {negate : Bool} {ts rest : List Token}
    {t : String × Rat} (ht : term negate ts = .ok (t, rest)) (hseen : t.1 ∉ seen)
    (hj : joint? rest = none) : termsFrom seen negate ts = .ok ([t], rest) := by
  rw [termsFrom]
  split
  · rename_i h; rw [ht] at h; cases h
  · rename_i h
    rw [ht] at h
    cases h
    rw [if_neg (by simpa using hseen)]
    split
    · rfl
    · rename_i h; rw [hj] at h; cases h

theorem termsFrom_join {seen : List String} {negate negateNext : Bool}
    {ts rest more left : List Token} {t : String × Rat} {later : List (String × Rat)}
    (ht : term negate ts = .ok (t, rest)) (hseen : t.1 ∉ seen)
    (hj : joint? rest = some (negateNext, more))
    (hlater : termsFrom (t.1 :: seen) negateNext more = .ok (later, left)) :
    termsFrom seen negate ts = .ok (t :: later, left) := by
  rw [termsFrom]
  split
  · rename_i h; rw [ht] at h; cases h
  · rename_i h
    rw [ht] at h
    cases h
    rw [if_neg (by simpa using hseen)]
    split
    · rename_i h; rw [hj] at h; cases h
    · rename_i h
      rw [hj] at h
      cases h
      simp only [hlater, bind, Except.bind]

def laterText (ts : List (String × Rat)) : List Char :=
  ts.flatMap fun t => (LinearForm.laterTermText t).toList

/-- Induction on the terms after the first; each is joined to what was read before it. -/
theorem reads_termsFrom {ts : List (String × Rat)} {t : String × Rat} {seen : List String}
    (negate : Bool) {q : Rat} (hq : (if negate then -q else q) = t.2)
    (hnames : ∀ u ∈ t :: ts, Variable.isName u.1.toList = true)
    (hnodup : ((t :: ts).map (·.1)).Nodup) (hseen : ∀ u ∈ t :: ts, u.1 ∉ seen) :
    Reads (termsFrom seen negate)
      ((Rational.termText q).toList ++ t.1.toList ++ laterText ts) (t :: ts) EndsTerms := by
  induction ts generalizing t seen negate q with
  | nil =>
    intro pos rest hr
    have hterm := reads_term negate q (hnames t List.mem_cons_self) pos rest hr.name
    rw [hq] at hterm
    simp only [laterText, List.flatMap_nil, List.append_nil]
    exact termsFrom_last hterm (hseen t List.mem_cons_self) (hr.joint _)
  | cons u us ih =>
    intro pos rest hr
    obtain ⟨negateNext, qu, hqu, htext⟩ := exists_laterTermText u
    have hlater : laterText (u :: us) = jointText negateNext ++
        ((Rational.termText qu).toList ++ u.1.toList ++ laterText us) := by
      simp [laterText, htext]
    have hstops : Stops Char.isAlphanum (laterText (u :: us) ++ rest) := by
      rw [hlater]
      cases negateNext <;> exact stops_cons.mpr rfl
    have hterm := reads_term negate q (hnames t List.mem_cons_self) pos _ hstops
    rw [hq] at hterm
    obtain ⟨hfresh, hnodup⟩ := List.nodup_cons.mp hnodup
    have hseen' : ∀ v ∈ u :: us, v.1 ∉ t.1 :: seen := by
      intro v hv hmem
      rcases List.mem_cons.mp hmem with heq | hmem
      · exact hfresh (List.mem_map.mpr ⟨v, hv, heq⟩)
      · exact hseen v (List.mem_cons_of_mem _ hv) hmem
    -- The joint takes part in the sign of the next coefficient, so the induction is over any
    -- `negate` and `q` that make up the term's coefficient.
    have hrest := ih negateNext hqu (fun v hv => hnames v (List.mem_cons_of_mem _ hv)) hnodup hseen'
    have hjoint : ∀ pos, joint? (tokensFrom pos (laterText (u :: us) ++ rest)) =
        some (negateNext, tokensFrom (pos + Text.width (jointText negateNext))
          ((Rational.termText qu).toList ++ u.1.toList ++ laterText us ++ rest)) := by
      intro pos
      rw [hlater, List.append_assoc, joint?_text]
    rw [List.append_assoc _ (laterText (u :: us)),
      termsFrom_join hterm (hseen t List.mem_cons_self) (hjoint _) (hrest _ rest hr), hlater]
    simp only [Text.width_append, Nat.add_assoc]

/-- The text of a list of terms that is not empty is read back term by term. -/
theorem reads_expression {terms : List (String × Rat)} (hne : terms ≠ [])
    (hnames : ∀ t ∈ terms, Variable.isName t.1.toList = true)
    (hnodup : (terms.map (·.1)).Nodup) :
    Reads expression (LinearForm.termsText terms).toList terms EndsTerms := by
  obtain ⟨t, ts, rfl⟩ := List.exists_cons_of_ne_nil hne
  have htext : (LinearForm.termsText (t :: ts)).toList =
      (Rational.termText t.2).toList ++ t.1.toList ++ laterText ts := by
    simp [LinearForm.termsText, LinearForm.firstTermText, laterText, String.toList_join,
      List.flatMap_map]
  rw [htext]
  exact reads_termsFrom false rfl hnames hnodup (by simp)

/-- A zero alone is no expression, since no variable follows it. -/
theorem expression_zero {rest : List Char} (hr : EndsNumber rest)
    (hname : ∀ pos, variableName? (tokensFrom pos rest) = none) (pos : Nat) :
    expression (tokensFrom pos ((LinearForm.termsText []).toList ++ rest)) =
      .error (malformedTerm (tokensFrom (pos + 1) rest)) := by
  refine termsFrom_error ?_
  have hzero := reads_coefficient 0 pos rest hr
  rw [show (Rational.text 0).toList = ['0'] by decide, show Text.width ['0'] = 1 from rfl]
    at hzero
  rw [show (LinearForm.termsText []).toList = ['0'] by decide, term, hzero]
  simp [bind, Except.bind, hname]

end ExactSimplex.Source
