import ExactSimplex.Engine.Run
import ExactSimplex.Numeral
import ExactSimplex.Text.Split

/-! The arguments of the command line. A command names a file; options may stand before or
after the command, short ones may share one dash, and a value may follow its option
directly, after an equals sign, or as the next argument. An option that takes a value, or
that switches something on, is given at most once on each side of the command. -/

namespace ExactSimplex.CommandLine

inductive Output where
  | pretty
  | json
  deriving DecidableEq, Repr

namespace Output

def word : Output → String
  | pretty => "pretty"
  | json => "json"

def all : List Output := [pretty, json]

end Output

inductive Command where
  | parse
  | check
  | standardize
  | tableau
  | solve
  deriving DecidableEq, Repr

namespace Command

def word : Command → String
  | parse => "parse"
  | check => "check"
  | standardize => "standardize"
  | tableau => "tableau"
  | solve => "solve"

def all : List Command := [parse, check, standardize, tableau, solve]

def ofWord? (s : String) : Option Command := all.find? fun c => c.word == s

end Command

/-- What options and file names have been given so far. -/
structure Given where
  output : Option Output := none
  steps : Bool := false
  maxSteps : Option Nat := none
  rule : Option PivotRule := none
  file : Option String := none

/-- A complete command line. -/
structure Invocation where
  command : Command
  file : String
  output : Output
  showSteps : Bool
  settings : Settings

/-! ## Options -/

inductive Choice where
  | output
  | verbose
  | steps
  | maxSteps
  | rule
  deriving DecidableEq, Repr

namespace Choice

def all : List Choice := [output, verbose, steps, maxSteps, rule]

/-- Options that every command has. -/
def common : List Choice := [output, verbose]

/-- The options that may stand after a command. -/
def after : Command → List Choice
  | .solve => all
  | _ => common

def takesValue : Choice → Bool
  | output | maxSteps | rule => true
  | verbose | steps => false

def longName : Choice → String
  | output => "format"
  | verbose => "verbose"
  | steps => "steps"
  | maxSteps => "max-steps"
  | rule => "pivot-rule"

def letter? : Choice → Option Char
  | output => some 'f'
  | verbose => some 'v'
  | steps => some 's'
  | maxSteps | rule => none

end Choice

/-- A count of steps, of at most 64 bits. -/
def readCount? (value : String) : Option Nat :=
  (Numeral.readCount? value.toList).filter (· < UInt64.size)

namespace Given

/-- Record a switch. -/
def switch? (g : Given) : Choice → Option Given
  | .verbose => some g
  | .steps => if g.steps then none else some { g with steps := true }
  | _ => none

/-- Record an option with its value. -/
def set? (g : Given) (value : String) : Choice → Option Given
  | .output =>
    if g.output.isSome then none
    else (Output.all.find? (·.word == value)).map fun o => { g with output := some o }
  | .maxSteps =>
    if g.maxSteps.isSome then none
    else (readCount? value).map fun n => { g with maxSteps := some n }
  | .rule =>
    if g.rule.isSome then none
    else (PivotRule.all.find? (·.word == value)).map fun r => { g with rule := some r }
  | _ => none

/-- Record the file, which has a name and is given once. -/
def setFile? (g : Given) (name : String) : Option Given :=
  if name.isEmpty || g.file.isSome then none else some { g with file := some name }

end Given

/-! ## Arguments -/

/-- One thing that the arguments say. -/
inductive Item where
  | word (s : String)
  /-- A word that can only be a file, because it stands after a double dash. -/
  | file (s : String)
  | switch (o : Choice)
  | setting (o : Choice) (value : String)
  deriving DecidableEq, Repr

/-- What letters that share a dash say; the last option may still lack its value. -/
def letterItems : List Char → Option (List Item × Option Choice)
  | [] => some ([], none)
  | c :: cs =>
    match Choice.all.find? fun o => o.letter? == some c with
    | none => none
    | some o =>
      if o.takesValue then
        match cs with
        | [] => some ([], some o)
        | '=' :: value => some ([.setting o (String.ofList value)], none)
        | value => some ([.setting o (String.ofList value)], none)
      else (letterItems cs).map fun (items, lacking) => (.switch o :: items, lacking)

/-- What a long option says, given without its dashes. -/
def longItems (body : List Char) : Option (List Item × Option Choice) :=
  let (name, value) := match Text.splitFirst? '=' body with
    | some (name, value) => (name, some value)
    | none => (body, none)
  match Choice.all.find? fun o => o.longName.toList == name with
  | none => none
  | some o =>
    match o.takesValue, value with
    | true, some value => some ([.setting o (String.ofList value)], none)
    | true, none => some ([], some o)
    | false, none => some ([.switch o], none)
    | false, some _ => none

/-- The items of an argument list. An option that lacks its value takes the next argument,
and after a double dash there are no more options. -/
def items : List String → Option (List Item)
  | [] => some []
  | a :: rest =>
    match a.toList with
    | ['-', '-'] => some (rest.map .file)
    | '-' :: c :: cs =>
      match if c = '-' then longItems cs else letterItems (c :: cs) with
      | none => none
      | some (found, none) => (items rest).map (found ++ ·)
      | some (found, some o) =>
        match rest with
        | [] => none
        | value :: rest => (items rest).map fun later => found ++ .setting o value :: later
    | _ => (items rest).map (.word a :: ·)

/-! ## Whole command lines -/

/-- Record what stands after the command. -/
def readAfter (known : List Choice) (g : Given) : Item → Option Given
  | .word s => g.setFile? s
  | .file s => g.setFile? s
  | .switch o => if known.contains o then g.switch? o else none
  | .setting o value => if known.contains o then g.set? value o else none

/-- Read up to the command: what has been given, the command and what follows it. -/
def readBefore (g : Given) : List Item → Option (Given × Command × List Item)
  | [] => none
  | .word s :: rest => (Command.ofWord? s).map fun command => (g, command, rest)
  | .file _ :: _ => none
  | item :: rest => (readAfter Choice.common g item).bind fun g => readBefore g rest

/-- The command line that the arguments make, if they make one. An output format after the
command goes before one that stands in front of it. -/
def Invocation.ofArguments? (arguments : List String) : Option Invocation := do
  let (before, command, rest) ← readBefore {} (← items arguments)
  let given ← rest.foldlM (readAfter (Choice.after command)) {}
  some {
    command
    file := ← given.file
    output := (given.output.or before.output).getD .pretty
    showSteps := given.steps
    settings := { maxSteps := given.maxSteps.getD 100, rule := given.rule.getD .dantzig } }

end ExactSimplex.CommandLine
