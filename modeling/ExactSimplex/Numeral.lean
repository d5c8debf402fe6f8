/-! Decimal numerals. A signed integer is written as at most one sign, a digit, and
then digits among which underscores may stand as separators. A count is written
without separators and without a minus sign. -/

namespace ExactSimplex.Numeral

/-- The number that a list of decimal digits writes; the empty list writes zero. -/
def value (digits : List Char) : Nat := Nat.ofDigitChars 10 digits 0

/-- A digit followed by digits and separators. -/
def readNat? : List Char → Option Nat
  | [] => none
  | d :: ds =>
    if d.isDigit && ds.all (fun c => c.isDigit || c == '_') then
      some (value (d :: ds.filter Char.isDigit))
    else none

/-- An integer with an optional sign. -/
def readInt? : List Char → Option Int
  | '-' :: ds => (readNat? ds).map fun n => -Int.ofNat n
  | '+' :: ds => (readNat? ds).map Int.ofNat
  | ds => (readNat? ds).map Int.ofNat

/-- A non-empty run of digits after an optional plus sign. -/
def readCount? (cs : List Char) : Option Nat :=
  let ds := match cs with
    | '+' :: ds => ds
    | ds => ds
  if !ds.isEmpty && ds.all Char.isDigit then some (value ds) else none

theorem value_toDigits (n : Nat) : value (Nat.toDigits 10 n) = n :=
  Nat.ofDigitChars_toDigits (by decide) (by decide)

theorem readNat?_of_digits {d : Char} {ds : List Char} (h : ∀ c ∈ d :: ds, c.isDigit = true) :
    readNat? (d :: ds) = some (value (d :: ds)) := by
  have hd := h d (by simp)
  have hs : ∀ c ∈ ds, c.isDigit = true := fun c hc => h c (by simp [hc])
  have hall : ds.all (fun c => c.isDigit || c == '_') = true :=
    List.all_eq_true.mpr fun c hc => by simp [hs c hc]
  simp [readNat?, hd, hall, List.filter_eq_self.mpr hs]

end ExactSimplex.Numeral
