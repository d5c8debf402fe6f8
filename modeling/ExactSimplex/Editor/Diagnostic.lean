import ExactSimplex.Source.Reader

/-! What an editor marks in a text that is no program: the line of the fault, or the whole
text when the fault is of the program as a whole. Ranges count UTF-8 bytes. -/

namespace ExactSimplex.Editor

open Source

structure Diagnostic where
  line : Option Nat
  range : Span
  severity : String
  message : String
  deriving DecidableEq, Repr

def isReturn (c : Char) : Bool := c == '\r'

/-- The range of the segment with the given number, when the first of `segments` begins at
byte `start`; carriage returns at its end are left out. -/
def segmentRange? (start : Nat) : List (List Char) → Nat → Option Span
  | [], _ => none
  | _, 0 => none
  | s :: _, 1 => some ⟨start, start + Text.width (Text.dropEnd isReturn s)⟩
  | s :: rest, n + 2 => segmentRange? (start + Text.width s + 1) rest (n + 1)

/-- The range of a line, counted from 1, without its break. -/
def lineRange? (text : List Char) (n : Nat) : Option Span :=
  segmentRange? 0 (Text.segments text) n

def diagnostics (text : String) : List Diagnostic :=
  match readProgram text with
  | .ok _ => []
  | .error e =>
    let range := (e.line.bind (lineRange? text.toList)).getD ⟨0, Text.width text.toList⟩
    [⟨e.line, range, "error", e.fault.message⟩]

end ExactSimplex.Editor
