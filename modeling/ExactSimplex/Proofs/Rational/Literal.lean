import Mathlib.Data.Rat.Lemmas
import Mathlib.Tactic.Ring
import ExactSimplex.Proofs.Rational.Text
import ExactSimplex.Rational.Literal

/-! What literals write. Digits write an integer, and digits after a point the part of it that
their places give; a quotient has an integer on each side of its slash and nothing else. Every
literal is read as exactly what it writes, with its sign. The text of a fraction is a literal of
it, so that it reads back as the fraction. -/

namespace ExactSimplex

namespace Text

theorem dropWhile_eq_self {p : Char → Bool} {cs : List Char} (h : ∀ c ∈ cs, p c = false) :
    cs.dropWhile p = cs := by
  cases cs with
  | nil => rfl
  | cons c cs => simp [h c (by simp)]

theorem trim_eq_self {cs : List Char} (h : ∀ c ∈ cs, isBlank c = false) : trim cs = cs := by
  have hrev : cs.reverse.dropWhile isBlank = cs.reverse :=
    dropWhile_eq_self fun c hc => h c (List.mem_reverse.mp hc)
  rw [trim, dropEnd, dropWhile_eq_self h, hrev, List.reverse_reverse]

theorem splitFirst?_append {mark : Char} {before : List Char} (h : mark ∉ before)
    (after : List Char) : splitFirst? mark (before ++ mark :: after) = some (before, after) := by
  induction before with
  | nil => simp [splitFirst?]
  | cons c cs ih =>
    simp only [List.mem_cons, not_or] at h
    simp [splitFirst?, Ne.symm h.1, ih h.2]

end Text

/-- At least one character, all of them decimal digits. -/
def Numeral.IsDigits (cs : List Char) : Prop := cs ≠ [] ∧ ∀ c ∈ cs, c.isDigit = true

namespace Rational

open Numeral

/-- The number that an integer or a decimal without a sign writes. -/
inductive WritesDecimal : List Char → Rat → Prop
  | integer {ds : List Char} : IsDigits ds → WritesDecimal ds (Numeral.value ds)
  | decimal {whole frac : List Char} : (∀ c ∈ whole, c.isDigit = true) → IsDigits frac →
      WritesDecimal (whole ++ '.' :: frac)
        (Numeral.value whole + Numeral.value frac / 10 ^ frac.length)

variable {negative : Bool} {text : String} {cs ds : List Char} {q a b : Rat}

/-! ## Digits -/

theorem readInt?_of_isDigits (h : IsDigits cs) :
    Numeral.readInt? cs = some (Numeral.value cs : Int) := by
  obtain ⟨d, ds, rfl⟩ := List.exists_cons_of_ne_nil h.1
  have hd := h.2 d List.mem_cons_self
  have hread := Numeral.readNat?_of_digits h.2
  unfold Numeral.readInt?
  split
  · rename_i heq; cases heq; exact absurd rfl (Text.ne_of_isDigit hd rfl)
  · rename_i heq; cases heq; exact absurd rfl (Text.ne_of_isDigit hd rfl)
  · simp [hread]

/-- An integer has no point. -/
theorem readInt?_point {whole frac : List Char} (h : ∀ c ∈ whole, c.isDigit = true) :
    Numeral.readInt? (whole ++ '.' :: frac) = none := by
  have hread : Numeral.readNat? (whole ++ '.' :: frac) = none := by
    have hpoint : Char.isDigit '.' = false := rfl
    cases whole <;> simp [Numeral.readNat?, hpoint]
  have hhead : ∀ c more, whole ++ '.' :: frac = c :: more → c ≠ '-' ∧ c ≠ '+' := by
    intro c more heq
    cases whole with
    | nil => cases heq; simp
    | cons d ds =>
      cases heq
      have hd := h c List.mem_cons_self
      exact ⟨Text.ne_of_isDigit hd rfl, Text.ne_of_isDigit hd rfl⟩
  unfold Numeral.readInt?
  split
  · rename_i heq; exact absurd rfl (hhead _ _ heq).1
  · rename_i heq; exact absurd rfl (hhead _ _ heq).2
  · simp [hread]

theorem value_append (whole frac : List Char) :
    Numeral.value (whole ++ frac) =
      10 ^ frac.length * Numeral.value whole + Numeral.value frac := by
  rw [Numeral.value, Nat.ofDigitChars_append, Nat.ofDigitChars_eq_ofDigitChars_zero]
  rfl

theorem mkRat_value (negative : Bool) (whole frac : List Char) :
    mkRat (if negative then -Int.ofNat (Numeral.value (whole ++ frac))
        else Int.ofNat (Numeral.value (whole ++ frac))) (Nat.pow 10 frac.length) =
      if negative then -(Numeral.value whole + Numeral.value frac / 10 ^ frac.length : Rat)
        else Numeral.value whole + Numeral.value frac / 10 ^ frac.length := by
  have hten : (10 : Rat) ^ frac.length ≠ 0 := pow_ne_zero _ (by norm_num)
  have hvalue : (Numeral.value (whole ++ frac) : Rat) / 10 ^ frac.length =
      Numeral.value whole + Numeral.value frac / 10 ^ frac.length := by
    rw [value_append, Nat.cast_add, Nat.cast_mul, Nat.cast_pow, add_div]
    congr 1
    exact mul_div_cancel_left₀ _ hten
  rw [← hvalue]
  cases negative <;> simp [Rat.mkRat_eq_div, neg_div]

/-! ## Literals -/

/-- A character of a number, a point or a slash is neither a blank nor a sign. -/
def IsPlain (c : Char) : Prop := c.isDigit = true ∨ c = '.' ∨ c = '/'

theorem IsPlain.not_blank {c : Char} (h : IsPlain c) : Text.isBlank c = false := by
  rcases h with h | rfl | rfl
  · exact Text.isBlank_of_isAlphanum (Text.isAlphanum_of_isDigit h)
  · rfl
  · rfl

theorem IsPlain.not_sign {c : Char} (h : IsPlain c) : c ≠ '+' ∧ c ≠ '-' := by
  rcases h with h | rfl | rfl
  · exact ⟨Text.ne_of_isDigit h rfl, Text.ne_of_isDigit h rfl⟩
  · simp
  · simp

theorem WritesDecimal.plain (h : WritesDecimal cs q) : ∀ c ∈ cs, IsPlain c := by
  cases h with
  | integer h => exact fun c hc => .inl (h.2 c hc)
  | decimal hwhole hfrac =>
    intro c hc
    rcases List.mem_append.mp hc with hc | hc
    · exact .inl (hwhole c hc)
    · rcases List.mem_cons.mp hc with rfl | hc
      · exact .inr (.inl rfl)
      · exact .inl (hfrac.2 c hc)

theorem WritesDecimal.ne_nil (h : WritesDecimal cs q) : cs ≠ [] := by
  cases h with
  | integer h => exact h.1
  | decimal => simp

/-- Nothing is trimmed from a literal, and its minus sign is taken off. -/
theorem read_minusIf (hne : cs ≠ []) (h : ∀ c ∈ cs, IsPlain c) :
    read (String.ofList (minusIf negative ++ cs)) =
      readUnsigned (String.ofList (minusIf negative ++ cs)) negative cs := by
  obtain ⟨c, more, rfl⟩ := List.exists_cons_of_ne_nil hne
  obtain ⟨hplus, hminus⟩ := (h c List.mem_cons_self).not_sign
  have hblank : ∀ d ∈ minusIf negative ++ c :: more, Text.isBlank d = false := by
    intro d hd
    rcases List.mem_append.mp hd with hd | hd
    · obtain rfl : d = '-' := by cases negative <;> simp_all [minusIf]
      rfl
    · exact (h d hd).not_blank
  have hsplit : splitMinus (minusIf negative ++ c :: more) = (negative, c :: more) := by
    cases negative with
    | true => rfl
    | false => simp [minusIf, splitMinus, hminus]
  simp only [read, String.toList_ofList, Text.trim_eq_self hblank, hsplit, isUnsigned]
  simp [hplus, hminus]

theorem not_mem_slash (h : WritesDecimal cs q) : '/' ∉ cs := by
  cases h with
  | integer h => exact Text.not_mem_of_digits h.2 rfl
  | decimal hwhole hfrac =>
    simp [Text.not_mem_of_digits hwhole (d := '/') rfl,
      Text.not_mem_of_digits hfrac.2 (d := '/') rfl]

theorem readUnsigned_decimal (h : WritesDecimal cs q) :
    readUnsigned text negative cs = .ok (if negative then -q else q) := by
  rw [readUnsigned, Text.splitFirst?_eq_none.mpr (not_mem_slash h)]
  cases h with
  | integer h =>
    have hpoint : '.' ∉ cs := Text.not_mem_of_digits h.2 rfl
    have hvalue := mkRat_value negative cs []
    simp only [Text.splitFirst?_eq_none.mpr hpoint]
    rw [ofDecimal_of_digits negative (by simpa using h.1) (by simpa using h.2), hvalue]
    simp [Numeral.value]
  | @decimal whole frac hwhole hfrac =>
    have hpoint : '.' ∉ whole := Text.not_mem_of_digits hwhole rfl
    have hdigits : ∀ c ∈ whole ++ frac, c.isDigit = true :=
      fun c hc => (List.mem_append.mp hc).elim (hwhole c) (hfrac.2 c)
    have hempty : frac.isEmpty = false := by simpa using hfrac.1
    simp only [Text.splitFirst?_append hpoint, hempty]
    rw [if_neg (by simp), ofDecimal_of_digits negative (by simp [hfrac.1]) hdigits, mkRat_value]

/-- A literal without a slash is read as what it writes. -/
theorem read_decimal (h : WritesDecimal cs q) :
    read (String.ofList (minusIf negative ++ cs)) = .ok (if negative then -q else q) := by
  rw [read_minusIf h.ne_nil h.plain, readUnsigned_decimal h]

theorem readInt?_eq_some (h : WritesDecimal cs q) {n : Int} :
    Numeral.readInt? cs = some n ↔ IsDigits cs ∧ n = Numeral.value cs := by
  cases h with
  | integer h => simp [readInt?_of_isDigits h, h, eq_comm]
  | @decimal whole frac hwhole hfrac =>
    have hnot : ¬ IsDigits (whole ++ '.' :: frac) := fun h =>
      Text.not_mem_of_digits h.2 (d := '.') rfl (by simp)
    simp [readInt?_point hwhole, hnot]

theorem fraction_signed (negative : Bool) (m n : Nat) :
    fraction (if negative then -(m : Int) else m) n = .ok q ↔
      n ≠ 0 ∧ q = if negative then -(m / n : Rat) else m / n := by
  by_cases hzero : n = 0
  · simp [fraction, hzero]
  · rw [fraction_ok (Int.natCast_ne_zero.mpr hzero), Except.ok.injEq, eq_comm]
    cases negative <;> simp [hzero, Rat.divInt_eq_div, neg_div]

/-- A literal with a slash is read if integers stand on both sides and that below is not zero;
it is their quotient. -/
theorem read_quotient (negative : Bool) (hcs : WritesDecimal cs a) (hds : WritesDecimal ds b) :
    read (String.ofList (minusIf negative ++ (cs ++ '/' :: ds))) = .ok q ↔
      IsDigits cs ∧ IsDigits ds ∧ Numeral.value ds ≠ 0 ∧
        q = if negative then -(Numeral.value cs / Numeral.value ds : Rat)
          else Numeral.value cs / Numeral.value ds := by
  have hplain : ∀ c ∈ cs ++ '/' :: ds, IsPlain c := by
    intro c hc
    rcases List.mem_append.mp hc with hc | hc
    · exact hcs.plain c hc
    · rcases List.mem_cons.mp hc with rfl | hc
      · exact .inr (.inr rfl)
      · exact hds.plain c hc
  rw [read_minusIf (by simp) hplain, readUnsigned, Text.splitFirst?_append (not_mem_slash hcs)]
  simp only
  cases htop : Numeral.readInt? cs with
  | none =>
    have hnot : ¬ IsDigits cs := fun h => by simp [readInt?_of_isDigits h] at htop
    simp [hnot]
  | some m =>
    obtain ⟨hcs, rfl⟩ := (readInt?_eq_some hcs).mp htop
    cases hbottom : Numeral.readInt? ds with
    | none =>
      have hnot : ¬ IsDigits ds := fun h => by simp [readInt?_of_isDigits h] at hbottom
      simp [hnot]
    | some n =>
      obtain ⟨hds, rfl⟩ := (readInt?_eq_some hds).mp hbottom
      simp only [hcs, hds, true_and]
      rw [if_neg (by simp), fraction_signed]

/-! ## The text of a fraction -/

theorem isDigits_toDigits (n : Nat) : IsDigits (Nat.toDigits 10 n) :=
  ⟨Nat.toDigits_ne_nil, fun _ => isDigit_of_mem_digits⟩

/-- The digits of a fraction are a literal of it without its sign. -/
theorem read_minusIf_magnitude (negative : Bool) (hq : 0 ≤ q) :
    read (String.ofList (minusIf negative ++ magnitude q)) = .ok (if negative then -q else q) := by
  have htop := isDigits_toDigits q.num.natAbs
  have hnum : (Numeral.value (Nat.toDigits 10 q.num.natAbs) : Rat) = q.num := by
    rw [Numeral.value_toDigits]
    exact congrArg Int.cast (Int.natAbs_of_nonneg (Rat.num_nonneg.mpr hq))
  by_cases hd : q.den = 1
  · have hmag : magnitude q = Nat.toDigits 10 q.num.natAbs := by simp [magnitude, hd]
    rw [hmag, read_decimal (.integer htop), hnum, Rat.den_eq_one_iff q |>.mp hd]
  · have hmag : magnitude q = Nat.toDigits 10 q.num.natAbs ++ '/' :: Nat.toDigits 10 q.den := by
      simp [magnitude, hd]
    have hbottom := isDigits_toDigits q.den
    have hden : Numeral.value (Nat.toDigits 10 q.den) = q.den := Numeral.value_toDigits _
    rw [hmag, read_quotient negative (.integer htop) (.integer hbottom), hnum, hden,
      Rat.num_div_den]
    exact ⟨htop, hbottom, q.den_nz, rfl⟩

/-- Reading the text of a fraction gives the fraction. -/
theorem read_text (q : Rat) : read (Rational.text q) = .ok q := by
  rw [← String.ofList_toList (s := Rational.text q), text_toList]
  by_cases hq : q < 0
  · have h := read_minusIf_magnitude true (q := -q) (by grind)
    simpa [hq] using h
  · have h := read_minusIf_magnitude false (Rat.not_lt.mp hq)
    simpa [hq] using h

end Rational

end ExactSimplex
