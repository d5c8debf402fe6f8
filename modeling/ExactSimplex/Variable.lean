/-! Names of variables. In program text a variable is one letter followed by digits;
tables show the digits at the end of any name as subscripts. -/

namespace ExactSimplex.Variable

/-- An ASCII letter, then only ASCII digits. -/
def isName (cs : List Char) : Bool :=
  match cs with
  | [] => false
  | c :: ds => c.isAlpha && ds.all Char.isDigit

/-- The name without its closing digits, and those digits. -/
def splitSubscript (cs : List Char) : List Char × List Char :=
  let backwards := cs.reverse
  ((backwards.dropWhile Char.isDigit).reverse, (backwards.takeWhile Char.isDigit).reverse)

/-- The subscript form of a decimal digit; other characters stay as they are. -/
def subscript : Char → Char
  | '0' => '₀' | '1' => '₁' | '2' => '₂' | '3' => '₃' | '4' => '₄'
  | '5' => '₅' | '6' => '₆' | '7' => '₇' | '8' => '₈' | '9' => '₉'
  | c => c

/-- The name with its closing digits as subscripts. -/
def shown (name : String) : String :=
  let (stem, digits) := splitSubscript name.toList
  String.ofList (stem ++ digits.map subscript)

theorem splitSubscript_append (cs : List Char) :
    (splitSubscript cs).1 ++ (splitSubscript cs).2 = cs := by
  simp only [splitSubscript, ← List.reverse_append, List.takeWhile_append_dropWhile,
    List.reverse_reverse]

theorem splitSubscript_digits (cs : List Char) :
    ∀ c ∈ (splitSubscript cs).2, c.isDigit = true := by
  intro c hc
  have hall : cs.reverse.takeWhile Char.isDigit |>.all Char.isDigit := List.all_takeWhile
  exact List.all_eq_true.mp hall c (List.mem_reverse.mp hc)

end ExactSimplex.Variable
