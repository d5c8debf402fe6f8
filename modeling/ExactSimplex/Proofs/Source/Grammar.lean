import ExactSimplex.Proofs.Rational.Literal
import ExactSimplex.Proofs.Source.Tokens

/-! The grammar of a line, as relations between lists of tokens and what they write. A relation
has a constructor for each production, and says nothing of how the tokens are read. Only inside a
value is a gap between two tokens forbidden. -/

namespace ExactSimplex.Source

namespace Token

def IsName (t : Token) : Prop := t.kind = .name ∧ Variable.isName t.text.toList = true

/-- No gap is between the two tokens. -/
def Touches (t u : Token) : Prop := t.span.touches u.span = true

end Token

/-! ## Values -/

/-- `number ['/' number]`: an integer or a decimal, or a quotient of two integers of which the
second is not zero. -/
inductive WritesMagnitude : List Token → Rat → Prop
  | number {t : Token} {q : Rat} : t.kind = .number →
      Rational.WritesDecimal t.text.toList q → WritesMagnitude [t] q
  | quotient {t slash u : Token} : t.kind = .number → slash.kind = .slash → u.kind = .number →
      t.Touches slash → slash.Touches u → Numeral.IsDigits t.text.toList →
      Numeral.IsDigits u.text.toList → Numeral.value u.text.toList ≠ 0 →
      WritesMagnitude [t, slash, u]
        (Numeral.value t.text.toList / Numeral.value u.text.toList)

/-- `['-'] number ['/' number]`: the sign makes a value negative. -/
inductive WritesValue : List Token → Rat → Prop
  | magnitude {ts : List Token} {q : Rat} : WritesMagnitude ts q → WritesValue ts q
  | negative {sign t : Token} {ts : List Token} {q : Rat} : sign.kind = .minus →
      sign.Touches t → WritesMagnitude (t :: ts) q → WritesValue (sign :: t :: ts) (-q)

/-! ## Expressions -/

/-- Nothing, a minus sign alone or a value. -/
inductive WritesCoefficient : List Token → Rat → Prop
  | implicit : WritesCoefficient [] 1
  | sign {t : Token} : t.kind = .minus → WritesCoefficient [t] (-1)
  | value {ts : List Token} {q : Rat} : WritesValue ts q → WritesCoefficient ts q

/-- `coefficient name`. -/
inductive WritesTerm : List Token → String × Rat → Prop
  | mk {ts : List Token} {name : Token} {q : Rat} : WritesCoefficient ts q → name.IsName →
      WritesTerm (ts ++ [name]) (name.text, q)

/-- The term that stands after a joint: a joining minus sign negates what is written. -/
def joinedTerm (negate : Bool) (t : String × Rat) : String × Rat :=
  (t.1, if negate then -t.2 else t.2)

/-- `(('+' | '-') term)*`. -/
inductive WritesLater : List Token → List (String × Rat) → Prop
  | none : WritesLater [] []
  | joined {negate : Bool} {sign : Token} {ts us : List Token} {t : String × Rat}
      {later : List (String × Rat)} : sign.kind = (if negate then .minus else .plus) →
      WritesTerm ts t → WritesLater us later →
      WritesLater (sign :: (ts ++ us)) (joinedTerm negate t :: later)

/-- `term (('+' | '-') term)*`, with no variable in two terms. -/
inductive WritesExpression : List Token → List (String × Rat) → Prop
  | mk {ts us : List Token} {t : String × Rat} {later : List (String × Rat)} :
      WritesTerm ts t → WritesLater us later → ((t :: later).map (·.1)).Nodup →
      WritesExpression (ts ++ us) (t :: later)

/-! ## Lines -/

/-- `(min | max) name '=' expression`. -/
inductive WritesObjective : List Token → Direction → String → List (String × Rat) → Prop
  | mk {word goal equals : Token} {ts : List Token} {d : Direction}
      {terms : List (String × Rat)} : word.kind = directionKind d → goal.IsName →
      equals.kind = .relation .equal → WritesExpression ts terms →
      WritesObjective (word :: goal :: equals :: ts) d goal.text terms

/-- `expression relation value`. -/
inductive WritesConstraint : List Token → List (String × Rat) → Relation → Rat → Prop
  | mk {ts us : List Token} {symbol : Token} {terms : List (String × Rat)} {r : Relation}
      {q : Rat} : WritesExpression ts terms → symbol.kind = .relation r → WritesValue us q →
      WritesConstraint (ts ++ symbol :: us) terms r q

/-- `name (',' name)*`. -/
inductive WritesNames : List Token → List String → Prop
  | last {t : Token} : t.IsName → WritesNames [t] [t.text]
  | more {t comma : Token} {ts : List Token} {names : List String} : t.IsName →
      comma.kind = .comma → WritesNames ts names →
      WritesNames (t :: comma :: ts) (t.text :: names)

/-- `name (',' name)* (non-negative | unrestricted)`. -/
inductive WritesDeclaration : List Token → List (String × Restriction) → Prop
  | mk {ts : List Token} {word : Token} {names : List String} {r : Restriction} :
      WritesNames ts names → word.kind = restrictionKind r →
      WritesDeclaration (ts ++ [word]) (names.map fun name => (name, r))

end ExactSimplex.Source
