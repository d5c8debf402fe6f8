import ExactSimplex.Numeral
import ExactSimplex.Rational.Basic
import ExactSimplex.Text.Split

/-! Reading a fraction from text. Around blanks, a literal is an optional minus sign
before a decimal or before a quotient of integers that are not negative. The digits of a
decimal are shifted exactly: `1.50` is 150 over 100, then put into lowest terms. -/

namespace ExactSimplex.Rational

/-- The decimal with the given digits before and after its point. -/
def ofDecimal (negative : Bool) (whole frac : List Char) : Except ArithmeticError Rat :=
  let digits := whole ++ frac
  if digits.isEmpty || !digits.all Char.isDigit then
    let sign := if negative then ['-'] else []
    .error (.invalidLiteral (String.ofList (sign ++ whole ++ '.' :: frac)))
  else
    let n := Int.ofNat (Numeral.value digits)
    .ok (mkRat (if negative then -n else n) (Nat.pow 10 frac.length))

/-- A literal without blanks and sign; `text` is what a refusal names. -/
def readUnsigned (text : String) (negative : Bool) (body : List Char) :
    Except ArithmeticError Rat :=
  match Text.splitFirst? '/' body with
  | some (top, bottom) =>
    match Numeral.readInt? top, Numeral.readInt? bottom with
    | some num, some den =>
      if num < 0 || den < 0 then .error (.invalidLiteral text)
      else fraction (if negative then -num else num) den
    | _, _ => .error (.invalidLiteral text)
  | none =>
    match Text.splitFirst? '.' body with
    | some (whole, frac) =>
      if frac.isEmpty then .error (.invalidLiteral text) else ofDecimal negative whole frac
    | none => ofDecimal negative body []

/-- Whether a minus sign comes first, and what follows it. -/
def splitMinus : List Char → Bool × List Char
  | '-' :: body => (true, body)
  | body => (false, body)

/-- Something is there, and it does not begin with a sign. -/
def isUnsigned : List Char → Bool
  | [] => false
  | c :: _ => c != '+' && c != '-'

/-- The fraction that a text writes. -/
def read (text : String) : Except ArithmeticError Rat :=
  let (negative, body) := splitMinus (Text.trim text.toList)
  if isUnsigned body then readUnsigned text negative body
  else .error (.invalidLiteral text)

theorem ofDecimal_of_digits (negative : Bool) {whole frac : List Char}
    (hne : whole ++ frac ≠ []) (hd : ∀ c ∈ whole ++ frac, c.isDigit = true) :
    ofDecimal negative whole frac =
      .ok (mkRat (if negative then -Int.ofNat (Numeral.value (whole ++ frac))
        else Int.ofNat (Numeral.value (whole ++ frac))) (Nat.pow 10 frac.length)) := by
  have hall : (whole ++ frac).all Char.isDigit = true := List.all_eq_true.mpr hd
  have hemp : (whole ++ frac).isEmpty = false := by simpa using hne
  simp only [ofDecimal, hall, hemp, Bool.not_true, Bool.or_false]
  rfl

end ExactSimplex.Rational
