import ExactSimplex.Source.Lexer

/-! The classes of tokens that an editor shows in different colours. -/

namespace ExactSimplex.Editor

open Source

def tokenClass : TokenKind → String
  | .min | .max | .nonNegative | .unrestricted => "keyword"
  | .name => "variable"
  | .number => "number"
  | .plus | .minus | .slash => "operator"
  | .relation _ => "relation"
  | .comma => "delimiter"
  | .newline => "whitespace"
  | .unknown | .endOfText => "error"

/-- The tokens of a text but for its end. -/
def highlighted (text : String) : List Token :=
  (tokens text.toList).filter fun t => t.kind != .endOfText

end ExactSimplex.Editor
