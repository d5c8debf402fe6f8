import ExactSimplex.Json.Basic

/-! The text of a JSON value, on one line or with a line for each member. In strings the
quote, the backslash and the control characters are escaped and all else stands as it is. -/

namespace ExactSimplex.Json

def hexDigit (n : Nat) : Char := if n < 10 then Char.ofNat (48 + n) else Char.ofNat (87 + n)

/-- How a character is written between quotes. -/
def escape (c : Char) : String :=
  if c = '"' then "\\\""
  else if c = '\\' then "\\\\"
  else if c = '\n' then "\\n"
  else if c = '\r' then "\\r"
  else if c = '\t' then "\\t"
  else if c.toNat = 8 then "\\b"
  else if c.toNat = 12 then "\\f"
  else if c.toNat < 32 then
    "\\u00".push (hexDigit (c.toNat / 16)) |>.push (hexDigit (c.toNat % 16))
  else c.toString

def quote (s : String) : String := "\"" ++ String.join (s.toList.map escape) ++ "\""

/-- An integer over a power of ten, as digits with a point. -/
def decimalText (digits : Int) (places : Nat) : String :=
  let padded := (toString digits.natAbs).toList.leftpad (places + 1) '0'
  let point := padded.length - places
  let sign := if digits < 0 then "-" else ""
  sign ++ String.ofList (padded.take point ++ '.' :: padded.drop point)

mutual

/-- The text without blanks. -/
def compact : Json → String
  | null => "null"
  | bool b => if b then "true" else "false"
  | number n => toString n
  | decimal digits places => decimalText digits places
  | string s => quote s
  | array items => "[" ++ ",".intercalate (compactItems items) ++ "]"
  | object members => "\x7b" ++ ",".intercalate (compactMembers members) ++ "\x7d"

def compactItems : List Json → List String
  | [] => []
  | v :: vs => compact v :: compactItems vs

def compactMembers : List (String × Json) → List String
  | [] => []
  | (name, v) :: rest => (quote name ++ ":" ++ compact v) :: compactMembers rest

end

def indent (depth : Nat) : String := "".pushn ' ' (2 * depth)

/-- Items on lines of their own between brackets. -/
def block (depth : Nat) (opening closing : String) (items : List String) : String :=
  if items.isEmpty then opening ++ closing
  else
    opening ++ "\n" ++ ",\n".intercalate (items.map (indent (depth + 1) ++ ·)) ++ "\n" ++
      indent depth ++ closing

mutual

/-- The text with a line for each item and member, indented by two blanks a level. -/
def pretty (depth : Nat) : Json → String
  | null => "null"
  | bool b => if b then "true" else "false"
  | number n => toString n
  | decimal digits places => decimalText digits places
  | string s => quote s
  | array items => block depth "[" "]" (prettyItems (depth + 1) items)
  | object members => block depth "\x7b" "\x7d" (prettyMembers (depth + 1) members)

def prettyItems (depth : Nat) : List Json → List String
  | [] => []
  | v :: vs => pretty depth v :: prettyItems depth vs

def prettyMembers (depth : Nat) : List (String × Json) → List String
  | [] => []
  | (name, v) :: rest => (quote name ++ ": " ++ pretty depth v) :: prettyMembers depth rest

end

end ExactSimplex.Json
