/-! White space as the Unicode property of that name has it: twenty-five characters,
among them the ASCII controls from tab to carriage return, no-break space and the
ideographic space. A text is trimmed of these and of nothing else. -/

namespace ExactSimplex.Text

/-- Characters with the Unicode property White_Space. -/
def isBlank (c : Char) : Bool :=
  let n := c.toNat
  (0x09 ≤ n && n ≤ 0x0D) || n == 0x20 || n == 0x85 || n == 0xA0 || n == 0x1680 ||
    (0x2000 ≤ n && n ≤ 0x200A) || n == 0x2028 || n == 0x2029 || n == 0x202F ||
    n == 0x205F || n == 0x3000

/-- The text without its longest ending of characters that satisfy `p`. -/
def dropEnd (p : Char → Bool) (cs : List Char) : List Char :=
  (cs.reverse.dropWhile p).reverse

/-- The text without blanks at its two ends. -/
def trim (cs : List Char) : List Char := dropEnd isBlank (cs.dropWhile isBlank)

def trimmed (s : String) : String := String.ofList (trim s.toList)

end ExactSimplex.Text
