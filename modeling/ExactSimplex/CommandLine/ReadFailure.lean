/-! Why the file that a command names cannot be read, in the words of the system. -/

namespace ExactSimplex.CommandLine

inductive ReadFailure where
  | missing
  | denied
  | notDirectory
  | isDirectory
  | nameTooLong
  | tooManyLinks
  /-- What was read is no text in UTF-8. -/
  | notText
  | other (code : Nat) (reason : String)
  deriving DecidableEq, Repr

namespace ReadFailure

/-- The number and the words that the system has for the failure. -/
def system? : ReadFailure → Option (Nat × String)
  | missing => some (2, "No such file or directory")
  | denied => some (13, "Permission denied")
  | notDirectory => some (20, "Not a directory")
  | isDirectory => some (21, "Is a directory")
  | nameTooLong => some (36, "File name too long")
  | tooManyLinks => some (40, "Too many levels of symbolic links")
  | notText => none
  | other code reason => some (code, reason)

def message (e : ReadFailure) : String :=
  match e.system? with
  | some (code, reason) => s!"{reason} (os error {code})"
  | none => "stream did not contain valid UTF-8"

/-- The failures that have names here and numbers in the system. -/
def named : List ReadFailure :=
  [missing, denied, notDirectory, isDirectory, nameTooLong, tooManyLinks]

/-- The failure of the given number; `reason` says what it is if it has no name here. -/
def ofCode (code : Nat) (reason : String) : ReadFailure :=
  (named.find? fun e => e.system?.map (·.1) == some code).getD (other code reason)

/-- Numbers tell the named failures apart. -/
theorem ofCode_named {e : ReadFailure} {code : Nat} {words reason : String} (h : e ∈ named)
    (hs : e.system? = some (code, words)) : ofCode code reason = e := by
  simp only [named, List.mem_cons, List.not_mem_nil, or_false] at h
  rcases h with rfl | rfl | rfl | rfl | rfl | rfl <;> cases hs <;> rfl

end ReadFailure

end ExactSimplex.CommandLine
