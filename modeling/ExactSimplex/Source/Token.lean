import ExactSimplex.Program.Relation

/-! Tokens of program text. A token knows where it stands: its span counts UTF-8 bytes from
the start of the text that was read. -/

namespace ExactSimplex.Source

structure Span where
  start : Nat
  stop : Nat
  deriving DecidableEq, Repr

namespace Span

/-- The least span that covers both. -/
def merge (a b : Span) : Span := ⟨min a.start b.start, max a.stop b.stop⟩

/-- The second span begins where the first ends. -/
def touches (a b : Span) : Bool := a.stop == b.start

end Span

inductive TokenKind where
  | min
  | max
  | nonNegative
  | unrestricted
  | name
  | number
  | plus
  | minus
  | slash
  | comma
  | relation (r : Relation)
  | newline
  | endOfText
  | unknown
  deriving DecidableEq, Repr

def TokenKind.relation? : TokenKind → Option Relation
  | .relation r => some r
  | _ => none

structure Token where
  kind : TokenKind
  span : Span
  text : String
  deriving DecidableEq, Repr

end ExactSimplex.Source
