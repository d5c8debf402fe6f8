import ExactSimplex.CommandLine.ReadFailure
import ExactSimplex.Text.Line

/-! The files that a command can reach, as a tree, and what a path leads to. A path is
walked part by part from the root or from the working directory, and every part has to be
looked up in a directory. Names and paths are limited in their bytes. -/

namespace ExactSimplex.CommandLine

inductive FileTree where
  | text (content : String)
  /-- A file that is there and yet cannot be read as text. -/
  | unreadable (why : ReadFailure)
  /-- A file through which the standard input is read. -/
  | input
  | directory (entries : List (String × FileTree))

/-- Something in a tree, with the directories above it, the nearest first. -/
structure Place where
  here : FileTree
  above : List FileTree

/-- The most bytes of one part of a path. -/
def nameLimit : Nat := 255

/-- The most bytes of a whole path. -/
def pathLimit : Nat := 4095

namespace Place

/-- The directory above; the root is above itself. -/
def parent (p : Place) : Place :=
  match p.above with
  | [] => p
  | d :: ds => ⟨d, ds⟩

/-- Follow one part of a path. An empty part, like a dot, stays in the directory. -/
def follow (p : Place) (part : List Char) : Except ReadFailure Place :=
  match p.here with
  | .directory entries =>
    if part.isEmpty || part == ['.'] then .ok p
    else if part == ['.', '.'] then .ok p.parent
    else if nameLimit < Text.width part then .error .nameTooLong
    else
      match entries.lookup (String.ofList part) with
      | some t => .ok ⟨t, p.here :: p.above⟩
      | none => .error .missing
  | _ => .error .notDirectory

end Place

/-- The files of a machine and the directory in which the command is given. -/
structure Machine where
  root : FileTree
  working : Place

namespace Machine

def start (m : Machine) : List Char → Place
  | '/' :: _ => ⟨m.root, []⟩
  | _ => m.working

/-- The place that a path leads to. -/
def locate (m : Machine) (path : List Char) : Except ReadFailure Place :=
  if path.isEmpty then .error .missing
  else if pathLimit < Text.width path then .error .nameTooLong
  else (path.splitOn '/').foldlM Place.follow (m.start path)

/-- The text of a file, given the text on the standard input, which a dash names. -/
def read (m : Machine) (stdin file : String) : Except ReadFailure String :=
  if file = "-" then .ok stdin
  else do
    match (← m.locate file.toList).here with
    | .text content => .ok content
    | .input => .ok stdin
    | .unreadable why => .error why
    | .directory _ => .error .isDirectory

end Machine

end ExactSimplex.CommandLine
