import ExactSimplex.Proofs.Rational.Literal

/-! Which texts are read as fractions. Between blanks a text is a literal if it is a decimal or a
quotient of digits, after at most one minus sign. Besides literals the reader takes quotients with
underscores among their digits or a plus sign below the slash, and nothing else. -/

namespace ExactSimplex

namespace Numeral

/-- A digit, then digits and underscores. -/
def IsSeparated (cs : List Char) : Prop :=
  ∃ d ds, cs = d :: ds ∧ d.isDigit = true ∧ ∀ c ∈ ds, c.isDigit = true ∨ c = '_'

/-- The number that the digits write, whatever stands between them. -/
def digitsValue (cs : List Char) : Nat := value (cs.filter Char.isDigit)

variable {cs : List Char} {z : Int}

theorem IsSeparated.mem (h : IsSeparated cs) : ∀ c ∈ cs, c.isDigit = true ∨ c = '_' := by
  obtain ⟨d, ds, rfl, hd, hds⟩ := h
  exact List.forall_mem_cons.mpr ⟨.inl hd, hds⟩

theorem IsSeparated.not_mem (h : IsSeparated cs) {c : Char} (hdigit : c.isDigit = false)
    (hne : c ≠ '_') : c ∉ cs := by
  intro hc
  rcases h.mem c hc with hd | rfl
  · exact Bool.false_ne_true (hdigit.symm.trans hd)
  · exact hne rfl

theorem IsDigits.isSeparated (h : IsDigits cs) : IsSeparated cs := by
  obtain ⟨d, ds, rfl⟩ := List.exists_cons_of_ne_nil h.1
  obtain ⟨hd, hds⟩ := List.forall_mem_cons.mp h.2
  exact ⟨d, ds, rfl, hd, fun c hc => .inl (hds c hc)⟩

theorem IsSeparated.isDigits (h : IsSeparated cs) (hplain : '_' ∉ cs) : IsDigits cs := by
  refine ⟨?_, fun c hc => (h.mem c hc).resolve_right fun hu => hplain (hu ▸ hc)⟩
  obtain ⟨d, ds, rfl, -⟩ := h
  exact List.cons_ne_nil d ds

theorem digitsValue_of_isDigits (h : IsDigits cs) : digitsValue cs = value cs := by
  rw [digitsValue, List.filter_eq_self.mpr h.2]

theorem readNat?_eq_some {n : Nat} :
    readNat? cs = some n ↔ IsSeparated cs ∧ n = digitsValue cs := by
  cases cs with
  | nil => simp [readNat?, IsSeparated]
  | cons d ds =>
    simp only [readNat?, Option.ite_none_right_eq_some, Option.some.injEq, Bool.and_eq_true,
      List.all_eq_true, Bool.or_eq_true, beq_iff_eq]
    constructor
    · rintro ⟨⟨hd, hds⟩, rfl⟩
      exact ⟨⟨d, ds, rfl, hd, hds⟩, by rw [digitsValue, List.filter_cons_of_pos hd]⟩
    · rintro ⟨⟨_, _, ⟨⟩, hd, hds⟩, rfl⟩
      exact ⟨⟨hd, hds⟩, by rw [digitsValue, List.filter_cons_of_pos hd]⟩

/-- Digits after no sign or a plus sign are a number. -/
theorem readInt?_of_isSeparated (h : IsSeparated cs) {plus : List Char}
    (hplus : plus = [] ∨ plus = ['+']) :
    readInt? (plus ++ cs) = some (digitsValue cs : Int) := by
  have hread := readNat?_eq_some.mpr ⟨h, rfl⟩
  have hminus : '-' ∉ cs := h.not_mem rfl (by decide)
  have hnoplus : '+' ∉ cs := h.not_mem rfl (by decide)
  rcases hplus with rfl | rfl
  · rw [List.nil_append]
    unfold readInt?
    split
    · simp at hminus
    · simp at hnoplus
    · simp [hread]
  · simp [readInt?, hread]

theorem exists_isSeparated_of_readInt? (h : readInt? cs = some z) :
    ∃ sign ds, cs = sign ++ ds ∧ IsSeparated ds ∧
      ((sign = [] ∨ sign = ['+']) ∧ z = digitsValue ds ∨ sign = ['-'] ∧ z = -digitsValue ds) := by
  unfold readInt? at h
  split at h
  all_goals
    obtain ⟨n, hn, rfl⟩ := Option.map_eq_some_iff.mp h
    obtain ⟨hds, rfl⟩ := readNat?_eq_some.mp hn
  · exact ⟨['-'], _, rfl, hds, .inr ⟨rfl, rfl⟩⟩
  · exact ⟨['+'], _, rfl, hds, .inl ⟨.inr rfl, rfl⟩⟩
  · exact ⟨[], _, rfl, hds, .inl ⟨.inl rfl, rfl⟩⟩

end Numeral

namespace Rational

open Numeral

/-! ## What is written and what is read -/

/-- A decimal, or `digits '/' digits` where the second are not zero. -/
inductive WritesUnsigned : List Char → Rat → Prop
  | decimal {cs : List Char} {q : Rat} : WritesDecimal cs q → WritesUnsigned cs q
  | quotient {top bottom : List Char} : IsDigits top → IsDigits bottom → value bottom ≠ 0 →
      WritesUnsigned (top ++ '/' :: bottom) (value top / value bottom)

/-- A quotient as it is read: underscores can stand among the digits, and a plus sign before
those below. -/
inductive ReadsQuotient : List Char → Rat → Prop
  | mk {top plus bottom : List Char} : IsSeparated top → plus = [] ∨ plus = ['+'] →
      IsSeparated bottom → digitsValue bottom ≠ 0 →
      ReadsQuotient (top ++ '/' :: (plus ++ bottom)) (digitsValue top / digitsValue bottom)

/-- `['-']` and then what is written without a sign. -/
inductive Signed (writes : List Char → Rat → Prop) : List Char → Rat → Prop
  | mk {cs : List Char} {q : Rat} (negative : Bool) : writes cs q →
      Signed writes (minusIf negative ++ cs) (if negative then -q else q)

/-- A literal: at most one minus sign, and then digits, `digits '.' digits`, `'.' digits` or
`digits '/' digits`. -/
abbrev WritesLiteral : List Char → Rat → Prop := Signed WritesUnsigned

/-- A quotient that is read although it is no literal. -/
abbrev WritesLoosely : List Char → Rat → Prop :=
  Signed fun cs q => ReadsQuotient cs q ∧ ('+' ∈ cs ∨ '_' ∈ cs)

variable {negative : Bool} {text : String} {cs : List Char} {q : Rat}

theorem WritesUnsigned.plain (h : WritesUnsigned cs q) : ∀ c ∈ cs, IsPlain c := by
  cases h with
  | decimal h => exact h.plain
  | quotient htop hbottom _ =>
    intro c hc
    rcases List.mem_append.mp hc with hc | hc
    · exact .inl (htop.2 c hc)
    · rcases List.mem_cons.mp hc with rfl | hc
      · exact .inr (.inr rfl)
      · exact .inl (hbottom.2 c hc)

theorem not_isPlain_underscore : ¬ IsPlain '_' := by
  simp [IsPlain, show Char.isDigit '_' = false from rfl]

/-- A quotient that is read is written with digits alone, unless it has a plus sign or an
underscore in it. -/
theorem ReadsQuotient.writesUnsigned (h : ReadsQuotient cs q) (hplus : '+' ∉ cs)
    (hunder : '_' ∉ cs) : WritesUnsigned cs q := by
  cases h with
  | @mk top plus bottom htop hsign hbottom hzero =>
    obtain rfl : plus = [] := hsign.resolve_right (by rintro rfl; simp at hplus)
    simp only [List.nil_append, List.mem_append, List.mem_cons, not_or] at hunder
    have htop := htop.isDigits hunder.1
    have hbottom := hbottom.isDigits hunder.2.2
    rw [digitsValue_of_isDigits hbottom] at hzero ⊢
    rw [digitsValue_of_isDigits htop]
    exact .quotient htop hbottom hzero

theorem WritesUnsigned.cases_read (h : WritesUnsigned cs q) :
    WritesDecimal cs q ∨ ReadsQuotient cs q := by
  cases h with
  | decimal h => exact .inl h
  | quotient htop hbottom hzero =>
    rw [← digitsValue_of_isDigits htop]
    rw [← digitsValue_of_isDigits hbottom] at hzero ⊢
    exact .inr (@ReadsQuotient.mk _ [] _ htop.isSeparated (.inl rfl) hbottom.isSeparated hzero)

/-! ## Reading without a sign -/

theorem readUnsigned_quotient (h : ReadsQuotient cs q) :
    readUnsigned text negative cs = .ok (if negative then -q else q) := by
  cases h with
  | mk htop hplus hbottom hzero =>
    have hslash := htop.not_mem (c := '/') rfl (by decide)
    have hreadTop := readInt?_of_isSeparated htop (.inl rfl)
    rw [List.nil_append] at hreadTop
    simp only [readUnsigned, Text.splitFirst?_append hslash, hreadTop,
      readInt?_of_isSeparated hbottom hplus]
    rw [if_neg (by simp)]
    exact (fraction_signed negative _ _).mpr ⟨hzero, rfl⟩

theorem isDigits_of_ofDecimal {whole frac : List Char}
    (h : ofDecimal negative whole frac = .ok q) : IsDigits (whole ++ frac) := by
  unfold ofDecimal at h
  dsimp only at h
  split at h
  · cases h
  · rename_i hdigits
    simp only [Bool.or_eq_true, Bool.not_eq_true', not_or, List.isEmpty_iff, Bool.not_eq_false,
      List.all_eq_true] at hdigits
    exact hdigits

/-- What is read without a slash is a decimal. -/
theorem writesDecimal_of_readUnsigned (hslash : '/' ∉ cs)
    (h : readUnsigned text negative cs = .ok q) : ∃ m, WritesDecimal cs m := by
  rw [readUnsigned, Text.splitFirst?_eq_none.mpr hslash] at h
  simp only at h
  split at h
  · rename_i whole frac hsplit
    obtain ⟨rfl, -⟩ := Text.splitFirst?_eq_some hsplit
    split at h
    · cases h
    · rename_i hfrac
      obtain ⟨-, hdigits⟩ := isDigits_of_ofDecimal h
      exact ⟨_, .decimal (fun c hc => hdigits c (List.mem_append_left _ hc))
        ⟨by simpa using hfrac, fun c hc => hdigits c (List.mem_append_right _ hc)⟩⟩
  · have hdigits := isDigits_of_ofDecimal h
    rw [List.append_nil] at hdigits
    exact ⟨_, .integer hdigits⟩

/-- What is read with a slash is a quotient: a sign is not taken above the slash, and a minus sign
below it only where the denominator is zero. -/
theorem readsQuotient_of_readUnsigned (hcs : isUnsigned cs = true) (hslash : '/' ∈ cs)
    (h : readUnsigned text negative cs = .ok q) : ∃ m, ReadsQuotient cs m := by
  unfold readUnsigned at h
  split at h
  case h_2 hsplit => exact absurd hslash (Text.splitFirst?_eq_none.mp hsplit)
  rename_i top bottom hsplit
  obtain ⟨rfl, -⟩ := Text.splitFirst?_eq_some hsplit
  split at h
  case h_2 => cases h
  rename_i num den hnum hden
  split at h
  · cases h
  rename_i hsigns
  simp only [Bool.or_eq_true, decide_eq_true_eq, not_or, Int.not_lt] at hsigns
  have hzero : den ≠ 0 := by
    rintro rfl
    simp [fraction] at h
  obtain ⟨sign, digits, rfl, htop, hsign⟩ := exists_isSeparated_of_readInt? hnum
  obtain ⟨plus, below, rfl, hbottom, ⟨hplus, rfl⟩ | ⟨-, rfl⟩⟩ :=
    exists_isSeparated_of_readInt? hden
  · obtain rfl : sign = [] := by
      rcases hsign with ⟨rfl | rfl, -⟩ | ⟨rfl, -⟩
      · rfl
      · simp [isUnsigned] at hcs
      · simp [isUnsigned] at hcs
    exact ⟨_, .mk htop hplus hbottom (by simpa using hzero)⟩
  · omega

theorem readUnsigned_eq_ok (hcs : isUnsigned cs = true) :
    readUnsigned text negative cs = .ok q ↔
      ∃ m, (WritesDecimal cs m ∨ ReadsQuotient cs m) ∧ q = if negative then -m else m := by
  constructor
  · intro h
    by_cases hslash : '/' ∈ cs
    · obtain ⟨m, hm⟩ := readsQuotient_of_readUnsigned hcs hslash h
      exact ⟨m, .inr hm, Except.ok.inj (h.symm.trans (readUnsigned_quotient hm))⟩
    · obtain ⟨m, hm⟩ := writesDecimal_of_readUnsigned hslash h
      exact ⟨m, .inl hm, Except.ok.inj (h.symm.trans (readUnsigned_decimal hm))⟩
  · rintro ⟨m, hm | hm, rfl⟩
    · exact readUnsigned_decimal hm
    · exact readUnsigned_quotient hm

/-! ## Reading any text -/

theorem minusIf_splitMinus (cs : List Char) :
    minusIf (splitMinus cs).1 ++ (splitMinus cs).2 = cs := by
  unfold splitMinus
  split <;> rfl

theorem splitMinus_minusIf (h : isUnsigned cs = true) :
    splitMinus (minusIf negative ++ cs) = (negative, cs) := by
  cases negative with
  | true => rfl
  | false =>
    cases cs with
    | nil => cases h
    | cons c cs =>
      have hc : c ≠ '-' := by rintro rfl; simp [isUnsigned] at h
      simp [minusIf, splitMinus, hc]

theorem isUnsigned_of_isDigit {c : Char} (h : c.isDigit = true) (cs : List Char) :
    isUnsigned (c :: cs) = true := by
  simp [isUnsigned, Text.ne_of_isDigit h (d := '+') rfl, Text.ne_of_isDigit h (d := '-') rfl]

theorem WritesDecimal.isUnsigned (h : WritesDecimal cs q) : isUnsigned cs = true := by
  obtain ⟨c, more, rfl⟩ := List.exists_cons_of_ne_nil h.ne_nil
  obtain ⟨hplus, hminus⟩ := (h.plain c List.mem_cons_self).not_sign
  simp [Rational.isUnsigned, hplus, hminus]

theorem ReadsQuotient.isUnsigned (h : ReadsQuotient cs q) : isUnsigned cs = true := by
  cases h with
  | mk htop _ _ _ =>
    obtain ⟨d, ds, rfl, hd, -⟩ := htop
    exact isUnsigned_of_isDigit hd _

/-- A text is read if what stands between its blanks is a decimal or such a quotient, after at most
one minus sign. -/
theorem read_eq_ok : read text = .ok q ↔
    Signed (fun cs m => WritesDecimal cs m ∨ ReadsQuotient cs m) (Text.trim text.toList) q := by
  constructor
  · intro h
    unfold read at h
    rw [← minusIf_splitMinus (Text.trim text.toList)]
    generalize splitMinus (Text.trim text.toList) = split at h ⊢
    dsimp only at h
    split at h
    · rename_i hunsigned
      obtain ⟨m, hm, rfl⟩ := (readUnsigned_eq_ok hunsigned).mp h
      exact .mk _ hm
    · cases h
  · intro h
    generalize hcs : Text.trim text.toList = cs at h
    cases h with
    | @mk body m negative hm =>
      have hunsigned : isUnsigned body = true := hm.elim (·.isUnsigned) (·.isUnsigned)
      rw [read, hcs, splitMinus_minusIf hunsigned]
      exact (if_pos hunsigned).trans ((readUnsigned_eq_ok hunsigned).mpr ⟨m, hm, rfl⟩)

theorem Signed.imp {writes writes' : List Char → Rat → Prop}
    (h : ∀ {cs q}, writes cs q → writes' cs q) (hcs : Signed writes cs q) :
    Signed writes' cs q := by
  cases hcs with
  | mk negative hcs => exact .mk negative (h hcs)

theorem mem_minusIf_append {c : Char} (hc : c ≠ '-') :
    c ∈ minusIf negative ++ cs ↔ c ∈ cs := by
  cases negative <;> simp [minusIf, hc]

theorem WritesLiteral.not_mem (h : WritesLiteral cs q) {c : Char} (hc : c ≠ '-')
    (hplain : ¬ IsPlain c) : c ∉ cs := by
  cases h with
  | mk negative h => exact fun hmem => hplain (h.plain c ((mem_minusIf_append hc).mp hmem))

/-- A literal has neither a plus sign nor an underscore. -/
theorem WritesLiteral.not_loose (h : WritesLiteral cs q) : '+' ∉ cs ∧ '_' ∉ cs :=
  ⟨h.not_mem (by decide) fun hplus => hplus.not_sign.1 rfl,
    h.not_mem (by decide) not_isPlain_underscore⟩

theorem WritesLoosely.mem (h : WritesLoosely cs q) : '+' ∈ cs ∨ '_' ∈ cs := by
  cases h with
  | mk negative h =>
    exact h.2.imp (mem_minusIf_append (by decide)).mpr (mem_minusIf_append (by decide)).mpr

theorem signed_or_iff : Signed (fun cs m => WritesDecimal cs m ∨ ReadsQuotient cs m) cs q ↔
    WritesLiteral cs q ∨ WritesLoosely cs q := by
  constructor
  · rintro ⟨negative, hm | hm⟩
    · exact .inl (.mk negative (.decimal hm))
    · rename_i body m
      by_cases hloose : '+' ∈ body ∨ '_' ∈ body
      · exact .inr (.mk negative ⟨hm, hloose⟩)
      · rw [not_or] at hloose
        exact .inl (.mk negative (hm.writesUnsigned hloose.1 hloose.2))
  · rintro (h | h)
    · exact h.imp WritesUnsigned.cases_read
    · exact h.imp fun h => .inr h.1

/-- A text is read as a fraction if it is a literal of it between blanks, or such a quotient of it
with a plus sign or an underscore. So the texts that are read are the literals, precisely where
there is no such quotient; and a text without plus signs and underscores is none. -/
theorem read_eq_ok_iff (text : String) :
    (∀ q, read text = .ok q ↔
      WritesLiteral (Text.trim text.toList) q ∨ WritesLoosely (Text.trim text.toList) q) ∧
    ((∀ q, read text = .ok q ↔ WritesLiteral (Text.trim text.toList) q) ↔
      ∀ q, ¬ WritesLoosely (Text.trim text.toList) q) ∧
    (∀ q, WritesLoosely (Text.trim text.toList) q →
      '+' ∈ Text.trim text.toList ∨ '_' ∈ Text.trim text.toList) := by
  have hread : ∀ q, read text = .ok q ↔
      WritesLiteral (Text.trim text.toList) q ∨ WritesLoosely (Text.trim text.toList) q :=
    fun q => read_eq_ok.trans signed_or_iff
  refine ⟨hread, ⟨fun h q hloose => ?_, fun h q => ?_⟩, fun q => WritesLoosely.mem⟩
  · obtain ⟨hplus, hunder⟩ := ((h q).mp ((hread q).mpr (.inr hloose))).not_loose
    exact hloose.mem.elim hplus hunder
  · exact (hread q).trans (or_iff_left (h q))

/-- Two quotients that are read and are no literals. -/
theorem not_literal_plusBelow :
    (read "3/+4" = .ok (3 / 4) ∧ ∀ q, ¬ WritesLiteral (Text.trim "3/+4".toList) q) ∧
      (read "1_0/2" = .ok 5 ∧ ∀ q, ¬ WritesLiteral (Text.trim "1_0/2".toList) q) := by
  refine ⟨⟨by decide +kernel, fun q h => ?_⟩, by decide +kernel, fun q h => ?_⟩
  · exact h.not_loose.1 (by decide +kernel)
  · exact h.not_loose.2 (by decide +kernel)

end Rational

end ExactSimplex
