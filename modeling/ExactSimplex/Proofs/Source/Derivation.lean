import ExactSimplex.Proofs.Except
import ExactSimplex.Proofs.LinearForm.Terms
import ExactSimplex.Proofs.Source.Expression
import ExactSimplex.Proofs.Source.Grammar
import ExactSimplex.Proofs.Source.Lexemes

/-! The rules read what the grammar derives. A rule recognizes a relation when what it takes from
the front of its tokens writes what it returns, and when it returns whatever is written there,
provided that nothing follows which it would take as well. -/

namespace ExactSimplex.Source

variable {α : Type} {ts rest : List Token} {q : Rat}

structure Recognizes (rule : List Token → Except Fault (α × List Token))
    (writes : List Token → α → Prop) (follow : List Token → Prop) : Prop where
  sound : ∀ {ts rest : List Token} {a : α}, WellLexed ts → rule ts = .ok (a, rest) →
    ∃ used, ts = used ++ rest ∧ writes used a
  complete : ∀ {used rest : List Token} {a : α}, writes used a → follow rest →
    rule (used ++ rest) = .ok (a, rest)

/-- The next token, if there is one, is of none of these kinds. -/
def NotNext (kinds : List TokenKind) (ts : List Token) : Prop := ∀ t ∈ ts.head?, t.kind ∉ kinds

@[simp] theorem notNext_cons {kinds : List TokenKind} {t : Token} {ts : List Token} :
    NotNext kinds (t :: ts) ↔ t.kind ∉ kinds := by simp [NotNext]

/-! ## Single tokens -/

theorem touching?_eq_some {kind : TokenKind} {span : Span} {t : Token} :
    touching? kind span ts = some (t, rest) ↔
      ts = t :: rest ∧ t.kind = kind ∧ span.touches t.span = true := by
  cases ts with
  | nil => simp [touching?]
  | cons u us =>
    simp only [touching?, Bool.and_eq_true, decide_eq_true_eq, Option.ite_none_right_eq_some,
      Option.some.injEq, Prod.mk.injEq, List.cons.injEq]
    constructor
    · rintro ⟨h, rfl, rfl⟩
      exact ⟨⟨rfl, rfl⟩, h⟩
    · rintro ⟨⟨rfl, rfl⟩, h⟩
      exact ⟨h, rfl, rfl⟩

theorem touching?_of_notNext {kinds : List TokenKind} {kind : TokenKind} (h : NotNext kinds ts)
    (hk : kind ∈ kinds) (span : Span) : touching? kind span ts = none := by
  refine Option.eq_none_iff_forall_ne_some.mpr fun ⟨t, more⟩ htouch => ?_
  obtain ⟨rfl, rfl, -⟩ := touching?_eq_some.mp htouch
  exact notNext_cons.mp h hk

theorem variableName?_eq_some {name : String} :
    variableName? ts = some (name, rest) ↔
      ∃ t : Token, ts = t :: rest ∧ t.IsName ∧ t.text = name := by
  cases ts with
  | nil => simp [variableName?]
  | cons u us =>
    simp only [variableName?, Bool.and_eq_true, decide_eq_true_eq, Option.ite_none_right_eq_some,
      Option.some.injEq, Prod.mk.injEq, List.cons.injEq, Token.IsName]
    constructor
    · rintro ⟨h, rfl, rfl⟩
      exact ⟨u, ⟨rfl, rfl⟩, h, rfl⟩
    · rintro ⟨t, ⟨rfl, rfl⟩, h, rfl⟩
      exact ⟨h, rfl, rfl⟩

theorem joint?_eq_some {negate : Bool} :
    joint? ts = some (negate, rest) ↔
      ∃ sign : Token, ts = sign :: rest ∧ sign.kind = if negate then .minus else .plus := by
  cases ts with
  | nil => simp [joint?]
  | cons t ts =>
    by_cases hplus : t.kind = .plus
    · cases negate <;> simp [joint?, hplus]
    · by_cases hminus : t.kind = .minus
      · cases negate <;> simp [joint?, hminus]
      · cases negate <;> simp [joint?, hplus, hminus]

/-! ## Values -/

theorem literal_eq_ok_iff {text : String} :
    literal text ts = .ok (q, rest) ↔ Rational.read text = .ok q ∧ rest = ts := by
  unfold literal
  cases Rational.read text <;> simp [eq_comm]

theorem signed_eq (negative : Bool) (text : String) :
    signed negative text = String.ofList (Rational.minusIf negative ++ text.toList) := by
  rw [← signed_ofList, String.ofList_toList]

theorem signed_quotient (negative : Bool) (top bottom : String) :
    signed negative top ++ "/" ++ bottom =
      String.ofList (Rational.minusIf negative ++ (top.toList ++ '/' :: bottom.toList)) := by
  refine String.toList_injective ?_
  simp [signed_eq]

theorem WritesMagnitude.exists_number (h : WritesMagnitude ts q) :
    ∃ t more, ts = t :: more ∧ t.kind = .number := by
  cases h with
  | number hkind => exact ⟨_, _, rfl, hkind⟩
  | quotient hkind => exact ⟨_, _, rfl, hkind⟩

theorem finishValue_sound {negative : Bool} {first : Token} (hts : WellLexed (first :: ts))
    (hfirst : first.kind = .number) (h : finishValue negative first ts = .ok (q, rest)) :
    ∃ more m, ts = more ++ rest ∧ WritesMagnitude (first :: more) m ∧
      q = if negative then -m else m := by
  obtain ⟨m, hm⟩ := hts first List.mem_cons_self hfirst
  unfold finishValue at h
  split at h
  · obtain ⟨hread, rfl⟩ := literal_eq_ok_iff.mp h
    rw [signed_eq, Rational.read_decimal hm] at hread
    exact ⟨[], m, rfl, .number hfirst hm, (Except.ok.inj hread).symm⟩
  · rename_i slash us hnext
    obtain ⟨rfl, hslash, htouch⟩ := touching?_eq_some.mp hnext
    split at h
    · cases h
    · rename_i below us hnext
      obtain ⟨rfl, hbelow, htouch'⟩ := touching?_eq_some.mp hnext
      obtain ⟨n, hn⟩ := hts below (by simp) hbelow
      obtain ⟨hread, rfl⟩ := literal_eq_ok_iff.mp h
      rw [signed_quotient, Rational.read_quotient negative hm hn] at hread
      obtain ⟨htop, hbottom, hzero, hq⟩ := hread
      exact ⟨[slash, below], _, rfl,
        .quotient hfirst hslash hbelow htouch htouch' htop hbottom hzero, hq⟩

theorem finishValue_complete {negative : Bool} {first : Token} {more : List Token} {m : Rat}
    (h : WritesMagnitude (first :: more) m) (hrest : NotNext [.slash] rest) :
    finishValue negative first (more ++ rest) = .ok (if negative then -m else m, rest) := by
  cases h with
  | number hfirst hm =>
    rw [List.nil_append, finishValue, touching?_of_notNext hrest (by simp)]
    exact literal_eq_ok_iff.mpr ⟨by rw [signed_eq, Rational.read_decimal hm], rfl⟩
  | quotient hfirst hslash hbelow htouch htouch' htop hbottom hzero =>
    rename_i slash below
    have hnext : touching? .slash first.span (slash :: below :: rest) =
        some (slash, below :: rest) := touching?_eq_some.mpr ⟨rfl, hslash, htouch⟩
    have hnext' : touching? .number slash.span (below :: rest) = some (below, rest) :=
      touching?_eq_some.mpr ⟨rfl, hbelow, htouch'⟩
    have hread := (Rational.read_quotient negative (.integer htop) (.integer hbottom)).mpr
      ⟨htop, hbottom, hzero, rfl⟩
    simp only [List.cons_append, List.nil_append, finishValue, hnext, hnext', signed_quotient]
    exact literal_eq_ok_iff.mpr ⟨hread, rfl⟩

theorem number_sound {first : Token} (hts : WellLexed (first :: ts))
    (hfirst : first.kind = .number) (h : finishValue false first ts = .ok (q, rest)) :
    ∃ used, first :: ts = used ++ rest ∧ WritesValue used q := by
  obtain ⟨more, m, rfl, hm, rfl⟩ := finishValue_sound hts hfirst h
  exact ⟨first :: more, rfl, .magnitude hm⟩

theorem signed_sound {sign first : Token} {us : List Token} (hts : WellLexed (sign :: ts))
    (hminus : sign.kind = .minus) (hnext : touching? .number sign.span ts = some (first, us))
    (h : finishValue true first us = .ok (q, rest)) :
    ∃ used, sign :: ts = used ++ rest ∧ WritesValue used q := by
  obtain ⟨rfl, hfirst, htouch⟩ := touching?_eq_some.mp hnext
  obtain ⟨more, m, rfl, hm, rfl⟩ := finishValue_sound hts.tail hfirst h
  exact ⟨sign :: first :: more, rfl, .negative hminus htouch hm⟩

/-- A rule that goes on from the first number, negative after a minus sign that touches it,
returns what a value writes. -/
theorem WritesValue.complete {rule : List Token → Except Fault (Rat × List Token)}
    (hnumber : ∀ first ts, first.kind = .number →
      rule (first :: ts) = finishValue false first ts)
    (hminus : ∀ sign first ts more, sign.kind = .minus →
      touching? .number sign.span ts = some (first, more) →
      rule (sign :: ts) = finishValue true first more)
    {used : List Token} (h : WritesValue used q) (hrest : NotNext [.slash] rest) :
    rule (used ++ rest) = .ok (q, rest) := by
  cases h with
  | magnitude hm =>
    obtain ⟨t, more, rfl, hkind⟩ := hm.exists_number
    simp [hnumber _ _ hkind, finishValue_complete hm hrest]
  | negative hsign htouch hm =>
    rename_i sign t more m
    obtain ⟨_, _, heq, hkind⟩ := hm.exists_number
    cases heq
    have hnext : touching? .number sign.span (t :: (more ++ rest)) = some (t, more ++ rest) :=
      touching?_eq_some.mpr ⟨rfl, hkind, htouch⟩
    simp [hminus _ _ _ _ hsign hnext, finishValue_complete hm hrest]

theorem recognizes_value : Recognizes value WritesValue (NotNext [.slash]) where
  sound := by
    intro ts rest q hts h
    cases ts with
    | nil => cases h
    | cons t ts =>
      simp only [value] at h
      split at h
      · rename_i hminus
        split at h
        · cases h
        · rename_i hnext
          exact signed_sound hts hminus hnext h
      · split at h
        · rename_i hnumber
          exact number_sound hts hnumber h
        · cases h
  complete := WritesValue.complete (fun _ _ h => by simp [value, h])
    (fun _ _ _ _ h ht => by simp [value, h, ht])

/-! ## Expressions -/

/-- What may follow a coefficient: nothing that it would take as well. -/
abbrev EndsCoefficient : List Token → Prop := NotNext [.minus, .number, .slash]

theorem recognizes_coefficient :
    Recognizes termCoefficient WritesCoefficient EndsCoefficient where
  sound := by
    intro ts rest q hts h
    cases ts with
    | nil => cases h; exact ⟨[], rfl, .implicit⟩
    | cons t ts =>
      simp only [termCoefficient] at h
      split at h
      · rename_i hminus
        split at h
        · cases h; exact ⟨[t], rfl, .sign hminus⟩
        · rename_i hnext
          obtain ⟨used, heq, hvalue⟩ := signed_sound hts hminus hnext h
          exact ⟨used, heq, .value hvalue⟩
      · split at h
        · rename_i hnumber
          obtain ⟨used, heq, hvalue⟩ := number_sound hts hnumber h
          exact ⟨used, heq, .value hvalue⟩
        · cases h; exact ⟨[], rfl, .implicit⟩
  complete := by
    intro used rest q h hrest
    cases h with
    | implicit =>
      cases rest with
      | nil => rfl
      | cons t ts =>
        have ht := notNext_cons.mp hrest
        simp only [List.mem_cons, List.not_mem_nil, or_false, not_or] at ht
        simp [termCoefficient, ht]
    | sign hminus => simp [termCoefficient, hminus, touching?_of_notNext hrest]
    | value hvalue =>
      refine hvalue.complete (fun _ _ h => by simp [termCoefficient, h])
        (fun _ _ _ _ h ht => by simp [termCoefficient, h, ht]) ?_
      exact fun t ht hk => hrest t ht (by simp_all)

theorem term_sound {negate : Bool} {t : String × Rat} (hts : WellLexed ts)
    (h : term negate ts = .ok (t, rest)) :
    ∃ used u, ts = used ++ rest ∧ WritesTerm used u ∧ t = joinedTerm negate u := by
  obtain ⟨⟨c, us⟩, hc, hterm⟩ := bind_eq_ok.mp h
  obtain ⟨used, rfl, hwrites⟩ := recognizes_coefficient.sound hts hc
  simp only at hterm
  split at hterm
  · cases hterm
  · rename_i name us hnext
    obtain ⟨token, rfl, hname, rfl⟩ := variableName?_eq_some.mp hnext
    cases hterm
    exact ⟨used ++ [token], _, by simp, .mk hwrites hname, rfl⟩

theorem term_complete (negate : Bool) {used : List Token} {u : String × Rat}
    (h : WritesTerm used u) (rest : List Token) :
    term negate (used ++ rest) = .ok (joinedTerm negate u, rest) := by
  cases h with
  | mk hwrites hname =>
    rename_i us name c
    have hends : EndsCoefficient (name :: rest) := by simp [hname.1]
    have hnext : variableName? (name :: rest) = some (name.text, rest) :=
      variableName?_eq_some.mpr ⟨name, rfl, hname, rfl⟩
    rw [List.append_assoc, List.singleton_append, term,
      recognizes_coefficient.complete hwrites hends]
    simp only [bind, Except.bind, hnext, joinedTerm]

/-- Terms that are read begin with a term and end there, or go on after a joint. -/
theorem termsFrom_eq_ok {seen : List String} {negate : Bool} {terms : List (String × Rat)}
    (h : termsFrom seen negate ts = .ok (terms, rest)) :
    ∃ t more, term negate ts = .ok (t, more) ∧ t.1 ∉ seen ∧
      ((joint? more = none ∧ terms = [t] ∧ rest = more) ∨
        ∃ negateNext after later, joint? more = some (negateNext, after) ∧
          termsFrom (t.1 :: seen) negateNext after = .ok (later, rest) ∧ terms = t :: later) := by
  rw [termsFrom] at h
  split at h
  · cases h
  · rename_i t more ht
    split at h
    · cases h
    · rename_i hseen
      refine ⟨t, more, ht, by simpa using hseen, ?_⟩
      split at h
      · rename_i hj
        cases h
        exact .inl ⟨hj, rfl, rfl⟩
      · rename_i negateNext after hj
        obtain ⟨⟨later, left⟩, hlater, h⟩ := bind_eq_ok.mp h
        cases h
        exact .inr ⟨negateNext, after, later, hj, hlater, rfl⟩

/-- Induction on the terms, each of which is another one than those of `seen`. -/
theorem termsFrom_sound {seen : List String} {negate : Bool} {terms : List (String × Rat)}
    (hts : WellLexed ts) (h : termsFrom seen negate ts = .ok (terms, rest)) :
    ∃ used us u later, ts = used ++ us ++ rest ∧ WritesTerm used u ∧ WritesLater us later ∧
      terms = joinedTerm negate u :: later ∧ (terms.map (·.1)).Nodup ∧
      ∀ t ∈ terms, t.1 ∉ seen := by
  induction hn : ts.length using Nat.strong_induction_on
    generalizing ts seen negate terms rest with
  | _ n ih =>
  obtain ⟨t, more, ht, hseen, hend | ⟨negateNext, after, later, hj, hlater, rfl⟩⟩ :=
    termsFrom_eq_ok h
  · obtain ⟨-, rfl, rfl⟩ := hend
    obtain ⟨used, u, rfl, hu, rfl⟩ := term_sound hts ht
    exact ⟨used, [], u, [], by simp, hu, .none, rfl, by simp, by simpa using hseen⟩
  · have hlt : after.length < n := hn ▸ Nat.lt_trans (joint?_length hj) (term_length ht)
    obtain ⟨used, u, rfl, hu, rfl⟩ := term_sound hts ht
    obtain ⟨sign, rfl, hsign⟩ := joint?_eq_some.mp hj
    obtain ⟨used', us, u', later', rfl, hu', hlater', rfl, hnodup, hfresh⟩ :=
      ih _ hlt hts.right.tail hlater rfl
    refine ⟨used, sign :: (used' ++ us), u, _, by simp, hu, .joined hsign hu' hlater', rfl, ?_, ?_⟩
    · refine List.nodup_cons.mpr ⟨fun hmem => ?_, hnodup⟩
      obtain ⟨v, hv, heq⟩ := List.mem_map.mp hmem
      exact hfresh v hv (heq ▸ List.mem_cons_self)
    · refine List.forall_mem_cons.mpr ⟨hseen, fun v hv hmem => ?_⟩
      exact hfresh v hv (List.mem_cons_of_mem _ hmem)

theorem joint?_of_notNext (h : NotNext [.plus, .minus] ts) : joint? ts = none := by
  refine Option.eq_none_iff_forall_ne_some.mpr fun ⟨negate, more⟩ hj => ?_
  obtain ⟨sign, rfl, hkind⟩ := joint?_eq_some.mp hj
  cases negate <;> simp_all

/-- Induction on the terms after the first; each is joined to those before it. -/
theorem termsFrom_complete {used us : List Token} {u : String × Rat} {later : List (String × Rat)}
    {seen : List String} (negate : Bool) (hu : WritesTerm used u) (hlater : WritesLater us later)
    (hnodup : ((u :: later).map (·.1)).Nodup)
    (hseen : ∀ name ∈ (u :: later).map (·.1), name ∉ seen)
    (hrest : NotNext [.plus, .minus] rest) :
    termsFrom seen negate (used ++ (us ++ rest)) = .ok (joinedTerm negate u :: later, rest) := by
  have hfirst : u.1 ∉ seen := hseen u.1 List.mem_cons_self
  induction hlater generalizing used u seen negate with
  | none => exact termsFrom_last (term_complete negate hu _) hfirst (joint?_of_notNext hrest)
  | @joined negateNext sign ts us t later hsign ht hlater ih =>
    obtain ⟨hfresh, hnodup⟩ := List.nodup_cons.mp hnodup
    have hseen' : ∀ name ∈ (t :: later).map (·.1), name ∉ u.1 :: seen := by
      intro name hname hmem
      rcases List.mem_cons.mp hmem with rfl | hmem
      · exact hfresh hname
      · exact hseen name (List.mem_cons_of_mem _ hname) hmem
    have hlater' := ih negateNext ht hnodup hseen' (hseen' t.1 List.mem_cons_self)
    rw [← List.append_assoc] at hlater'
    exact termsFrom_join (term_complete negate hu _) hfirst
      (joint?_eq_some.mpr ⟨sign, rfl, hsign⟩) hlater'

end ExactSimplex.Source
