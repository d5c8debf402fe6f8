import Mathlib.Algebra.Order.Ring.Rat
import ExactSimplex.Proofs.Text.Character
import ExactSimplex.Rational.Basic

/-! The text of a fraction is a minus sign, if the fraction is negative, before the digits of the
numerator, and a slash and the digits of the denominator follow unless the denominator is 1. -/

namespace ExactSimplex.Rational

theorem isDigit_of_mem_digits {n : Nat} {c : Char} (h : c ∈ Nat.toDigits 10 n) :
    c.isDigit = true := Nat.isDigit_of_mem_toDigits (by decide) (by decide) h

/-- The digits of a fraction, without its sign. -/
def magnitude (q : Rat) : List Char :=
  Nat.toDigits 10 q.num.natAbs ++ if q.den = 1 then [] else '/' :: Nat.toDigits 10 q.den

def minusIf (negative : Bool) : List Char := if negative then ['-'] else []

@[simp] theorem magnitude_neg (q : Rat) : magnitude (-q) = magnitude q := by simp [magnitude]

theorem repr_toList (n : Int) :
    n.repr.toList = minusIf (decide (n < 0)) ++ Nat.toDigits 10 n.natAbs := by
  rw [Int.repr_eq_if]
  by_cases hn : 0 ≤ n
  · have habs : n.toNat = n.natAbs := by omega
    simp [minusIf, hn, Nat.toList_repr, habs]
  · have habs : (-n).toNat = n.natAbs := by omega
    simp [minusIf, hn, Int.not_le.mp hn, Nat.toList_repr, habs]

theorem text_toList (q : Rat) : (text q).toList = minusIf (decide (q < 0)) ++ magnitude q := by
  by_cases hd : q.den = 1 <;> simp [text, magnitude, hd, repr_toList]

end ExactSimplex.Rational
