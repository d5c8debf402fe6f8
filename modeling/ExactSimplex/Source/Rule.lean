import ExactSimplex.Program.Basic
import ExactSimplex.Rational.Literal
import ExactSimplex.Source.Fault
import ExactSimplex.Source.Lexer
import ExactSimplex.Variable

/-! The forms of a line, read from its tokens. Each rule takes tokens from the front of a
list and returns what it read with the tokens that are left. A minus sign belongs to a
number only when it touches it, and so does the slash of a fraction. The terms of an
expression are kept as written, zero coefficients included, because a variable counts as
mentioned even where its coefficient is zero. -/

namespace ExactSimplex.Source

/-- The fault of finding the head of the list where something else was expected. -/
def unexpected (expected : String) : List Token → Fault
  | t :: _ =>
    if t.kind = .endOfText then .unexpectedToken expected "end of line" t.span
    else .unexpectedToken expected t.text t.span
  | [] => .unexpectedToken expected "end of line" ⟨0, 0⟩

/-- The name of a variable, if one comes first. -/
def variableName? : List Token → Option (String × List Token)
  | t :: ts =>
    if t.kind = .name && Variable.isName t.text.toList then some (t.text, ts) else none
  | [] => none

/-- The first token, if it has the given kind and begins where `span` ends. -/
def touching? (kind : TokenKind) (span : Span) : List Token → Option (Token × List Token)
  | t :: ts => if t.kind = kind && span.touches t.span then some (t, ts) else none
  | [] => none

/-! ## Numbers -/

def literal (text : String) (rest : List Token) : Except Fault (Rat × List Token) :=
  match Rational.read text with
  | .ok q => .ok (q, rest)
  | .error _ => .error (.invalidNumber text)

def signed (negative : Bool) (text : String) : String := if negative then "-" ++ text else text

/-- A value whose first number has been read: a denominator may touch it. -/
def finishValue (negative : Bool) (first : Token) (ts : List Token) :
    Except Fault (Rat × List Token) :=
  match touching? .slash first.span ts with
  | none => literal (signed negative first.text) ts
  | some (slash, ts) =>
    match touching? .number slash.span ts with
    | none => .error (unexpected "denominator" ts)
    | some (denominator, ts) => literal (signed negative first.text ++ "/" ++ denominator.text) ts

/-- A number with an optional minus sign that touches it. -/
def value : List Token → Except Fault (Rat × List Token)
  | [] => .error (unexpected "number" [])
  | t :: ts =>
    if t.kind = .minus then
      match touching? .number t.span ts with
      | none => .error (unexpected "number" ts)
      | some (first, ts) => finishValue true first ts
    else if t.kind = .number then finishValue false t ts
    else .error (unexpected "number" (t :: ts))

/-! ## Expressions -/

/-- The coefficient before a variable: nothing is 1 and a minus sign alone is -1. -/
def termCoefficient : List Token → Except Fault (Rat × List Token)
  | [] => .ok (1, [])
  | t :: ts =>
    if t.kind = .minus then
      match touching? .number t.span ts with
      | none => .ok (-1, ts)
      | some (first, ts) => finishValue true first ts
    else if t.kind = .number then finishValue false t ts
    else .ok (1, t :: ts)

/-- The fault of finding no variable where a term needs one. -/
def malformedTerm : List Token → Fault
  | t :: _ => .malformedTerm (if t.kind = .endOfText then "end of line" else t.text)
  | [] => .malformedTerm "end of line"

/-- A term, negated after a joining minus sign. -/
def term (negate : Bool) (ts : List Token) : Except Fault ((String × Rat) × List Token) := do
  let (q, ts) ← termCoefficient ts
  match variableName? ts with
  | none => .error (malformedTerm ts)
  | some (name, ts) => .ok ((name, if negate then -q else q), ts)

/-- Whether another term is joined on, and whether it is negated. -/
def joint? : List Token → Option (Bool × List Token)
  | t :: ts =>
    if t.kind = .plus then some (false, ts)
    else if t.kind = .minus then some (true, ts)
    else none
  | [] => none

theorem touching?_length {kind : TokenKind} {span : Span} {ts rest : List Token} {t : Token}
    (h : touching? kind span ts = some (t, rest)) : rest.length < ts.length := by
  cases ts with
  | nil => cases h
  | cons u us =>
    simp only [touching?] at h
    split at h
    · cases h; simp
    · cases h

theorem literal_rest {text : String} {ts rest : List Token} {q : Rat}
    (h : literal text ts = .ok (q, rest)) : rest = ts := by
  unfold literal at h
  split at h <;> cases h
  rfl

theorem finishValue_length {negative : Bool} {first : Token} {ts rest : List Token} {q : Rat}
    (h : finishValue negative first ts = .ok (q, rest)) : rest.length ≤ ts.length := by
  unfold finishValue at h
  split at h
  · exact Nat.le_of_eq (congrArg List.length (literal_rest h))
  · rename_i hs
    split at h
    · cases h
    · rename_i hn
      rw [literal_rest h]
      exact Nat.le_of_lt (Nat.lt_trans (touching?_length hn) (touching?_length hs))

theorem termCoefficient_length {ts rest : List Token} {q : Rat}
    (h : termCoefficient ts = .ok (q, rest)) : rest.length ≤ ts.length := by
  cases ts with
  | nil => cases h; exact Nat.le_refl _
  | cons t ts =>
    simp only [termCoefficient] at h
    split at h
    · split at h
      · cases h; simp
      · rename_i ht
        have := finishValue_length h
        have := touching?_length ht
        simp only [List.length_cons]; omega
    · split at h
      · have := finishValue_length h
        simp only [List.length_cons]; omega
      · cases h; exact Nat.le_refl _

theorem variableName?_length {ts rest : List Token} {name : String}
    (h : variableName? ts = some (name, rest)) : rest.length < ts.length := by
  cases ts with
  | nil => cases h
  | cons t ts =>
    simp only [variableName?] at h
    split at h
    · cases h; simp
    · cases h

theorem term_length {negate : Bool} {ts rest : List Token} {t : String × Rat}
    (h : term negate ts = .ok (t, rest)) : rest.length < ts.length := by
  unfold term at h
  cases hq : termCoefficient ts with
  | error f => rw [hq] at h; cases h
  | ok r =>
    obtain ⟨q, us⟩ := r
    rw [hq] at h
    cases hn : variableName? us with
    | none => simp only [bind, Except.bind, hn] at h; cases h
    | some m =>
      simp only [bind, Except.bind, hn] at h
      cases h
      exact Nat.lt_of_lt_of_le (variableName?_length hn) (termCoefficient_length hq)

theorem joint?_length {ts rest : List Token} {negate : Bool}
    (h : joint? ts = some (negate, rest)) : rest.length < ts.length := by
  cases ts with
  | nil => cases h
  | cons t ts =>
    simp only [joint?] at h
    split at h
    · cases h; simp
    · split at h
      · cases h; simp
      · cases h

/-- Terms joined by signs, none with a variable of `seen` or of an earlier term. -/
def termsFrom (seen : List String) (negate : Bool) (ts : List Token) :
    Except Fault (List (String × Rat) × List Token) :=
  match _ht : term negate ts with
  | .error f => .error f
  | .ok (t, rest) =>
    if seen.contains t.1 then .error (.duplicateVariable t.1)
    else
      match _hj : joint? rest with
      | none => .ok ([t], rest)
      | some (negateNext, more) => do
        let (later, rest) ← termsFrom (t.1 :: seen) negateNext more
        .ok (t :: later, rest)
termination_by ts.length
decreasing_by exact Nat.lt_trans (joint?_length _hj) (term_length _ht)

/-- The terms of an expression, as written. -/
def expression (ts : List Token) : Except Fault (List (String × Rat) × List Token) :=
  termsFrom [] false ts

/-! ## Lines -/

/-- Something read, with the variables that its expression mentions. -/
structure Mentioning (α : Type) where
  value : α
  mentioned : List String

def direction : List Token → Except Fault (Direction × List Token)
  | [] => .error (unexpected "min or max" [])
  | t :: ts =>
    if t.kind = .min then .ok (.min, ts)
    else if t.kind = .max then .ok (.max, ts)
    else .error (unexpected "min or max" (t :: ts))

def relation : List Token → Except Fault (Relation × List Token)
  | [] => .error (unexpected "relation" [])
  | t :: ts =>
    match t.kind.relation? with
    | some r => .ok (r, ts)
    | none => .error (unexpected "relation" (t :: ts))

def equals : List Token → Except Fault (Unit × List Token)
  | [] => .error (unexpected "=" [])
  | t :: ts =>
    if t.kind = .relation .equal then .ok ((), ts) else .error (unexpected "=" (t :: ts))

/-- A direction, the objective's variable, an equals sign and an expression. -/
def objective (ts : List Token) : Except Fault (Mentioning Objective × List Token) := do
  let (direction, ts) ← direction ts
  match variableName? ts with
  | none => .error (unexpected "objective variable" ts)
  | some (goal, ts) =>
    let ((), ts) ← equals ts
    let (terms, ts) ← expression ts
    .ok (⟨⟨direction, goal, LinearForm.ofTerms terms⟩, terms.map (·.1)⟩, ts)

/-- An expression, a relation and a value. -/
def constraint (ts : List Token) : Except Fault (Mentioning Constraint × List Token) := do
  let (terms, ts) ← expression ts
  let (relation, ts) ← relation ts
  let (rhs, ts) ← value ts
  .ok (⟨⟨LinearForm.ofTerms terms, relation, rhs⟩, terms.map (·.1)⟩, ts)

/-- Names between commas. -/
def namesFrom (ts : List Token) : Except Fault (List String × List Token) :=
  match _hn : variableName? ts with
  | none => .error (unexpected "variable" ts)
  | some (name, rest) =>
    match rest, _hn with
    | t :: more, _hn =>
      if t.kind = .comma then do
        let (later, rest) ← namesFrom more
        .ok (name :: later, rest)
      else .ok ([name], t :: more)
    | [], _ => .ok ([name], [])
termination_by ts.length
decreasing_by
  have := variableName?_length _hn
  simp only [List.length_cons] at this
  omega

def restriction : List Token → Except Fault (Restriction × List Token)
  | [] => .error (unexpected "non-negative or unrestricted" [])
  | t :: ts =>
    if t.kind = .nonNegative then .ok (.nonNegative, ts)
    else if t.kind = .unrestricted then .ok (.unrestricted, ts)
    else .error (unexpected "non-negative or unrestricted" (t :: ts))

/-- Names between commas and the restriction of all of them. -/
def declaration (ts : List Token) : Except Fault (List (String × Restriction) × List Token) := do
  let (names, ts) ← namesFrom ts
  let (r, ts) ← restriction ts
  .ok (names.map fun name => (name, r), ts)

/-! ## Whole texts -/

def expectEnd : List Token → Except Fault Unit
  | [] => .ok ()
  | t :: ts =>
    if t.kind = .endOfText then .ok () else .error (unexpected "end of line" (t :: ts))

/-- What a rule reads from a whole text, with nothing left over. -/
def whole {α : Type} (rule : List Token → Except Fault (α × List Token)) (text : List Char) :
    Except Fault α := do
  let (result, ts) ← rule (tokens text)
  expectEnd ts
  .ok result

def readCoefficient (text : List Char) : Except Fault Rat := whole termCoefficient text

def readExpression (text : List Char) : Except Fault LinearForm :=
  (whole expression text).map LinearForm.ofTerms

def readObjective (text : List Char) : Except Fault (Mentioning Objective) :=
  whole objective text

def readConstraint (text : List Char) : Except Fault (Mentioning Constraint) :=
  whole constraint text

def readDeclaration (text : List Char) : Except Fault (List (String × Restriction)) :=
  whole declaration text

end ExactSimplex.Source
