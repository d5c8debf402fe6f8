import ExactSimplex.CommandLine.Session

/-! The program: read the named file, answer, and exit. -/

namespace ExactSimplex.CommandLine

/-- Numbers of failures come as 32-bit words, some of them negated. -/
def failureNumber (code : UInt32) : Nat :=
  if code.toNat < UInt32.size / 2 then code.toNat else (-code).toNat

/-- Why reading failed, by the number that the system gives. -/
def readFailure : IO.Error → ReadFailure
  | .noFileOrDirectory _ code reason => .ofCode (failureNumber code) reason
  | .permissionDenied _ code reason => .ofCode (failureNumber code) reason
  | .inappropriateType _ code reason => .ofCode (failureNumber code) reason
  | .invalidArgument _ code reason => .ofCode (failureNumber code) reason
  | .resourceExhausted _ code reason => .ofCode (failureNumber code) reason
  | .noSuchThing _ code reason => .ofCode (failureNumber code) reason
  | .unsatisfiedConstraints code reason => .ofCode (failureNumber code) reason
  | .illegalOperation code reason => .ofCode (failureNumber code) reason
  | .hardwareFault code reason => .ofCode (failureNumber code) reason
  | .unsupportedOperation code reason => .ofCode (failureNumber code) reason
  | .otherError code reason => .ofCode (failureNumber code) reason
  | e => .other 0 e.toString

/-- The bytes of the named file, or of the standard input if a dash names it. -/
def readBytes (file : String) : IO ByteArray := do
  if file == "-" then (← IO.getStdin).readBinToEnd else IO.FS.readBinFile file

def readSource (file : String) : IO (Except ReadFailure String) := do
  try
    match String.fromUTF8? (← readBytes file) with
    | some text => pure (.ok text)
    | none => pure (.error .notText)
  catch e => pure (.error (readFailure e))

def outcomeOf (arguments : List String) : IO Outcome :=
  match Invocation.ofArguments? arguments with
  | none => pure .usage
  | some i => do pure (i.outcome (← readSource i.file))

end ExactSimplex.CommandLine

/-- Answer the arguments on the output streams and exit with the code of the answer. -/
def main (arguments : List String) : IO UInt32 := do
  let o ← ExactSimplex.CommandLine.outcomeOf arguments
  (← IO.getStdout).putStr o.out
  (← IO.getStderr).putStr o.err
  pure o.code.toUInt32
