import ExactSimplex.Text.Blank

/-! Exact fractions with the divisions that can fail, and their text. A fraction is kept
in lowest terms with a positive denominator, so equal values are equal fractions. -/

namespace ExactSimplex

inductive ArithmeticError where
  | divisionByZero
  | invalidLiteral (text : String)
  deriving DecidableEq, Repr

def ArithmeticError.message : ArithmeticError → String
  | .divisionByZero => "Division by zero"
  | .invalidLiteral text => "Invalid rational literal: " ++ text

namespace Rational

/-- The fraction with the given numerator and denominator, in lowest terms. -/
def fraction (num den : Int) : Except ArithmeticError Rat :=
  if den = 0 then .error .divisionByZero else .ok (Rat.divInt num den)

def reciprocal (q : Rat) : Except ArithmeticError Rat :=
  if q = 0 then .error .divisionByZero else .ok q⁻¹

def quotient (a b : Rat) : Except ArithmeticError Rat :=
  (reciprocal b).map (a * ·)

def compare (a b : Rat) : Ordering :=
  if a < b then .lt else if a = b then .eq else .gt

def isInteger (q : Rat) : Bool := q.den == 1

/-! ## Lists of fractions -/

/-- The fractions in increasing order. -/
def sorted (qs : List Rat) : List Rat := qs.mergeSort fun a b => decide (a ≤ b)

def least? (qs : List Rat) : Option Rat := (sorted qs).head?

def greatest? (qs : List Rat) : Option Rat := (sorted qs).getLast?

/-! ## Text -/

/-- An integer alone, any other fraction as numerator, slash and denominator. -/
def text (q : Rat) : String :=
  if q.den = 1 then toString q.num else toString q.num ++ "/" ++ toString q.den

/-- How a coefficient is written before a variable: 1 is left out and -1 is a sign. -/
def termText (q : Rat) : String :=
  if q = 1 then "" else if q = -1 then "-" else text q

def signWord (q : Rat) : String :=
  if q = 0 then "zero" else if q < 0 then "negative" else "positive"

/-! ## When the divisions fail -/

theorem fraction_ok {num den : Int} (h : den ≠ 0) :
    fraction num den = .ok (Rat.divInt num den) := by simp [fraction, h]

theorem reciprocal_ok {q : Rat} (h : q ≠ 0) : reciprocal q = .ok q⁻¹ := by simp [reciprocal, h]

end Rational

end ExactSimplex
