/-! JSON values. Members of an object keep their order. A number is an integer, or a decimal
given by its digits and the number of its places. -/

namespace ExactSimplex

inductive Json where
  | null
  | bool (b : Bool)
  | number (n : Int)
  | decimal (digits : Int) (places : Nat)
  | string (s : String)
  | array (items : List Json)
  | object (members : List (String × Json))
  deriving Inhabited

namespace Json

def nat (n : Nat) : Json := .number n

def strings (ss : List String) : Json := .array (ss.map .string)

def ofOption (o : Option Json) : Json := o.getD .null

end Json

end ExactSimplex
