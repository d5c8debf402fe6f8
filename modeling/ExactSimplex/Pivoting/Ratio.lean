import ExactSimplex.Rational.Basic

/-! The outcome of the min-ratio test for one row: how far the entering variable can rise
before the row's basic variable reaches zero. A row that does not bind has no limit, and
no limit comes after every number. -/

namespace ExactSimplex

inductive Ratio where
  | finite (q : Rat)
  | infinite
  deriving DecidableEq

namespace Ratio

def text : Ratio → String
  | finite q => Rational.text q
  | infinite => "∞"

def le : Ratio → Ratio → Bool
  | finite a, finite b => a ≤ b
  | finite _, infinite => true
  | infinite, finite _ => false
  | infinite, infinite => true

/-- The smaller of two ratios. -/
def smaller (a b : Ratio) : Ratio := if a.le b then a else b

/-- The least of the ratios; of none it is no limit. -/
def minimum (rs : List Ratio) : Ratio := rs.foldr smaller infinite

/-- The ratios in increasing order. -/
def sorted (rs : List Ratio) : List Ratio := rs.mergeSort le

def least? (rs : List Ratio) : Option Ratio := (sorted rs).head?

def greatest? (rs : List Ratio) : Option Ratio := (sorted rs).getLast?

theorem le_refl (r : Ratio) : r.le r = true := by
  cases r with
  | finite q => simp only [le, decide_eq_true_eq]; exact Rat.le_refl
  | infinite => rfl

theorem le_trans {a b c : Ratio} (hab : a.le b = true) (hbc : b.le c = true) :
    a.le c = true := by
  cases a <;> cases b <;> cases c <;>
    simp only [le, decide_eq_true_eq, reduceCtorEq] at hab hbc ⊢
  exact Rat.le_trans hab hbc

theorem le_total (a b : Ratio) : a.le b = true ∨ b.le a = true := by
  cases a <;> cases b <;> simp only [le, decide_eq_true_eq, reduceCtorEq, or_true, or_false]
  exact Rat.le_total

theorem smaller_le_left (a b : Ratio) : (smaller a b).le a = true := by
  unfold smaller
  split
  · exact le_refl a
  · rename_i h; exact (le_total a b).resolve_left h

theorem smaller_le_right (a b : Ratio) : (smaller a b).le b = true := by
  unfold smaller
  split
  · assumption
  · exact le_refl b

theorem minimum_le {rs : List Ratio} {r : Ratio} (h : r ∈ rs) : (minimum rs).le r = true := by
  induction rs with
  | nil => cases h
  | cons s rs ih =>
    rcases List.mem_cons.mp h with rfl | h
    · exact smaller_le_left _ _
    · exact le_trans (smaller_le_right _ _) (ih h)

theorem minimum_mem {rs : List Ratio} (h : minimum rs ≠ infinite) : minimum rs ∈ rs := by
  induction rs with
  | nil => exact absurd rfl h
  | cons s rs ih =>
    simp only [minimum, List.foldr_cons, smaller] at h ⊢
    split
    · exact List.mem_cons_self
    · rename_i hle
      rw [if_neg hle] at h
      exact List.mem_cons_of_mem _ (ih h)

end Ratio

end ExactSimplex
