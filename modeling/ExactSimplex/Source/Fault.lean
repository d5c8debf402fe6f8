import ExactSimplex.Source.Token

/-! What can be wrong with program text. A fault says what was found; a parse error adds
the line, which faults of the whole program do not have. A fault of shape means that the
text is not of the kind that was tried, as opposed to being of that kind with a bad value
in it. -/

namespace ExactSimplex.Source

inductive Fault where
  | malformedTerm (near : String)
  | duplicateVariable (name : String)
  | invalidLine (text : String)
  | undeclaredVariable (name : String)
  | unusedDeclaration (name : String)
  | duplicateDeclaration (name : String)
  | objectiveVariableReused (name : String)
  | unexpectedToken (expected found : String) (span : Span)
  | invalidNumber (literal : String)
  | emptyProgram
  deriving DecidableEq, Repr

namespace Fault

def message : Fault → String
  | malformedTerm near => s!"Malformed term near '{near}'"
  | duplicateVariable name => s!"Variable '{name}' appears more than once in one expression"
  | invalidLine text => s!"Not a constraint or a variable declaration: {text}"
  | undeclaredVariable name => s!"Variable '{name}' is used but never declared"
  | unusedDeclaration name => s!"Variable '{name}' is declared but never used"
  | duplicateDeclaration name => s!"Variable '{name}' is declared more than once"
  | objectiveVariableReused name =>
    s!"Objective variable '{name}' cannot appear in expressions or declarations"
  | unexpectedToken expected found span =>
    let column := span.start + 1
    s!"Unexpected token: expected {expected}, found '{found}' at column {column}"
  | invalidNumber literal => s!"Invalid number: {literal}"
  | emptyProgram => "Program is empty"

def isShapeMismatch : Fault → Bool
  | malformedTerm _ => true
  | unexpectedToken _ _ _ => true
  | _ => false

end Fault

structure ParseError where
  line : Option Nat
  fault : Fault
  deriving DecidableEq, Repr

def ParseError.message (e : ParseError) : String :=
  match e.line with
  | some n => s!"Line {n}: " ++ e.fault.message
  | none => e.fault.message

def Fault.atLine (f : Fault) (n : Nat) : ParseError := ⟨some n, f⟩

def Fault.overall (f : Fault) : ParseError := ⟨none, f⟩

end ExactSimplex.Source
