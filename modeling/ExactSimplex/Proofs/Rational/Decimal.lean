import ExactSimplex.Proofs.Rational.Literal

/-! Decimals are exact. The digits of a decimal, read as one number, are over the power of ten that
the places after the point give, in lowest terms. Zeros before the first digit or after the last
place change both sides of that quotient alike, so they do not show in the fraction. -/

namespace ExactSimplex

namespace Numeral

/-- The number that the digits of a decimal write where its point is left out. -/
def shifted (whole frac : List Char) : Nat := value whole * 10 ^ frac.length + value frac

def zeros (n : Nat) : List Char := List.replicate n '0'

variable {whole frac : List Char}

theorem value_digits (whole frac : List Char) : value (whole ++ frac) = shifted whole frac := by
  rw [Rational.value_append, shifted, Nat.mul_comm]

theorem value_zeros (n : Nat) : value (zeros n) = 0 := by
  induction n with
  | zero => rfl
  | succ n ih =>
    rw [zeros, List.replicate_succ, value, Nat.ofDigitChars_cons]
    exact ih

/-- Zeros in front leave a number as it is, and each zero behind it multiplies it by ten. -/
theorem shifted_zeros (m n : Nat) (whole frac : List Char) :
    shifted (zeros m ++ whole) (frac ++ zeros n) = shifted whole frac * 10 ^ n := by
  have hwhole : value (zeros m ++ whole) = value whole := by
    rw [value_digits, shifted, value_zeros, Nat.zero_mul, Nat.zero_add]
  have hfrac : value (frac ++ zeros n) = value frac * 10 ^ n := by
    rw [value_digits, shifted, value_zeros, Nat.add_zero, zeros, List.length_replicate]
  have hlength : (frac ++ zeros n).length = frac.length + n := by simp [zeros]
  calc shifted (zeros m ++ whole) (frac ++ zeros n)
      = value whole * 10 ^ (frac.length + n) + value frac * 10 ^ n := by
        rw [shifted, hwhole, hfrac, hlength]
    _ = shifted whole frac * 10 ^ n := by rw [shifted, Nat.pow_add, Nat.add_mul, Nat.mul_assoc]

theorem IsDigits.pad (h : IsDigits (whole ++ frac)) (m n : Nat) :
    IsDigits ((zeros m ++ whole) ++ (frac ++ zeros n)) := by
  have hzeros : ∀ k, ∀ c ∈ zeros k, c.isDigit = true := by
    intro k c hc
    rw [List.eq_of_mem_replicate hc]
    rfl
  refine ⟨fun hnil => h.1 ?_, fun c hc => ?_⟩
  · simp only [List.append_eq_nil_iff] at hnil ⊢
    exact ⟨hnil.1.2, hnil.2.1⟩
  · simp only [List.mem_append] at hc
    rcases hc with (hc | hc) | hc | hc
    · exact hzeros m c hc
    · exact h.2 c (List.mem_append_left _ hc)
    · exact h.2 c (List.mem_append_right _ hc)
    · exact hzeros n c hc

end Numeral

namespace Rational

open Numeral

variable {negative : Bool} {whole frac : List Char}

def signed (negative : Bool) (n : Nat) : Int := if negative then -n else n

theorem natAbs_signed (negative : Bool) (n : Nat) : (signed negative n).natAbs = n := by
  cases negative <;> simp [signed]

theorem signed_mul (negative : Bool) (a b : Nat) :
    signed negative (a * b) = signed negative a * b := by
  cases negative <;> simp [signed]

theorem signed_ediv (negative : Bool) {n d : Nat} (h : d ∣ n) :
    signed negative n / d = signed negative (n / d) := by
  cases negative with
  | false => simp [signed]
  | true => simp [signed, Int.neg_ediv_of_dvd (Int.natCast_dvd_natCast.mpr h)]

theorem ofDecimal_eq_ok (h : IsDigits (whole ++ frac)) :
    ofDecimal negative whole frac =
      .ok (mkRat (signed negative (shifted whole frac)) (10 ^ frac.length)) := by
  rw [ofDecimal_of_digits negative h.1 h.2, value_digits]
  rfl

theorem ofDecimal_eq_error (h : ¬ IsDigits (whole ++ frac)) :
    ofDecimal negative whole frac =
      .error (.invalidLiteral (String.ofList (minusIf negative ++ whole ++ '.' :: frac))) := by
  refine if_pos ?_
  rw [IsDigits, not_and_or, not_not] at h
  rcases h with h | h
  · simp [h]
  · have hall : (whole ++ frac).all Char.isDigit = false := by
      rw [Bool.eq_false_iff, Ne, List.all_eq_true]
      exact h
    simp [hall]

/-- Both sides of a quotient are divided by what they have in common. -/
theorem mkRat_signed (negative : Bool) (n : Nat) {d : Nat} (hd : d ≠ 0) :
    mkRat (signed negative n) d = (signed negative n : Rat) / d ∧
      (mkRat (signed negative n) d).num = signed negative (n / n.gcd d) ∧
      (mkRat (signed negative n) d).den = d / n.gcd d := by
  refine ⟨Rat.mkRat_eq_div _ _, ?_, ?_⟩
  · rw [Rat.num_mkRat, if_neg hd, natAbs_signed, Nat.gcd_comm]
    exact signed_ediv negative (Nat.gcd_dvd_left n d)
  · rw [Rat.den_mkRat, if_neg hd, natAbs_signed, Nat.gcd_comm]

theorem ofDecimal_zeros (h : IsDigits (whole ++ frac)) (m n : Nat) :
    ofDecimal negative (zeros m ++ whole) (frac ++ zeros n) = ofDecimal negative whole frac := by
  have hlength : (frac ++ zeros n).length = frac.length + n := by simp [zeros]
  have hten : 10 ^ n ≠ 0 := pow_ne_zero _ (by decide)
  rw [ofDecimal_eq_ok h, ofDecimal_eq_ok (h.pad m n), shifted_zeros, signed_mul, hlength,
    Nat.pow_add, Rat.mkRat_mul_right hten]

/-- The text of a fraction is read as the fraction. Digits with a point among, before or behind
them are read as the number that they write without it over a power of ten, with the sign and in
lowest terms, however many zeros are put at their ends; anything else is refused as a literal. -/
theorem text_and_decimals_exact :
    (∀ q, read (Rational.text q) = .ok q) ∧
    ∀ (negative : Bool) (whole frac : List Char),
      (IsDigits (whole ++ frac) → ∃ q, ofDecimal negative whole frac = .ok q ∧
        q = (if negative then -1 else 1) *
          (value whole * 10 ^ frac.length + value frac) / 10 ^ frac.length ∧
        q.num = signed negative
          (shifted whole frac / (shifted whole frac).gcd (10 ^ frac.length)) ∧
        q.den = 10 ^ frac.length / (shifted whole frac).gcd (10 ^ frac.length) ∧
        ∀ m n, ofDecimal negative (zeros m ++ whole) (frac ++ zeros n) = .ok q) ∧
      (¬ IsDigits (whole ++ frac) → ofDecimal negative whole frac =
        .error (.invalidLiteral (String.ofList (minusIf negative ++ whole ++ '.' :: frac)))) := by
  refine ⟨read_text, fun negative whole frac => ⟨fun h => ?_, ofDecimal_eq_error⟩⟩
  have hten : 10 ^ frac.length ≠ 0 := pow_ne_zero _ (by decide)
  obtain ⟨hvalue, hnum, hden⟩ := mkRat_signed negative (shifted whole frac) hten
  refine ⟨_, ofDecimal_eq_ok h, ?_, hnum, hden, fun m n => ?_⟩
  · rw [hvalue]
    cases negative <;> simp [signed, shifted]
  · rw [ofDecimal_zeros h, ofDecimal_eq_ok h]

/-- Minus a quarter without a digit before its point, and then with zeros around its digits. A
point alone writes nothing. -/
theorem text_and_decimals_exact_quarter :
    read (Rational.text (-1 / 4)) = .ok (-1 / 4) ∧
      (IsDigits ([] ++ ['2', '5']) ∧
        ∃ q, ofDecimal true [] ['2', '5'] = .ok q ∧ q.num = -1 ∧ q.den = 4 ∧
          ofDecimal true ['0', '0'] ['2', '5', '0'] = .ok q) ∧
      ¬ IsDigits ([] ++ []) ∧ ofDecimal true [] [] = .error (.invalidLiteral "-.") := by
  have hdigits : IsDigits ([] ++ ['2', '5']) := ⟨List.cons_ne_nil _ _, by simp [Char.isDigit]⟩
  have hnot : ¬ IsDigits ([] ++ []) := fun h => h.1 rfl
  obtain ⟨hread, hdecimal⟩ := text_and_decimals_exact
  obtain ⟨q, hq, -, hnum, hden, hzeros⟩ := (hdecimal true [] ['2', '5']).1 hdigits
  exact ⟨hread _, ⟨hdigits, q, hq, hnum, hden, hzeros 2 1⟩, hnot, (hdecimal true [] []).2 hnot⟩

end Rational

end ExactSimplex
