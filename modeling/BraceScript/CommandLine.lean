import BraceScript.Interpreter
import BraceScript.Excerpt
import BraceScript.Directory

/-!
# CommandLine — the command's arguments and its report

The command takes a program as its one argument, or the name of a file that holds one.
`CommandLine.report` is the whole command as a function of its arguments and of what reading a file
gives.
-/

namespace BraceScript.CommandLine

/-- What the arguments ask for. -/
inductive Request
  | version
  /-- To run a program: given as text, or by the name of its file. -/
  | run (fromFile : Bool) (verbosity : Nat) (contents : String)
deriving DecidableEq, Repr

/-- What is wrong with the arguments. -/
inductive UsageError
  | unknownOption (option : String)
  | repeatedOption (option : String)
  | extraArgument (text : String)
  | missingArgument
deriving DecidableEq, Repr

/-- The wording of a usage error. -/
def UsageError.message : UsageError → String
  | unknownOption option => "unexpected argument '" ++ option ++ "' found"
  | repeatedOption option => "the argument '" ++ option ++ "' cannot be used multiple times"
  | extraArgument text => "unexpected argument '" ++ text ++ "' found"
  | missingArgument => "the following required arguments were not provided: <CONTENTS>"

/-- The arguments seen so far. -/
structure Options where
  fromFile : Bool := false
  verbosity : Nat := 0
  contents : Option String := none

/-- What an option does to the arguments seen so far: none if the version is asked for, which ends
the reading at once. -/
abbrev Progress := Except UsageError (Option Options)

namespace Options

/-- Takes the option to read a file; it may be given once. -/
def takeFile (o : Options) (option : String) : Progress :=
  if o.fromFile then .error (.repeatedOption option) else .ok (some { o with fromFile := true })

/-- Takes the option to show more; it counts. -/
def takeVerbose (o : Options) : Progress := .ok (some { o with verbosity := o.verbosity + 1 })

/-- Takes an argument that is no option. -/
def takeContents (o : Options) (text : String) : Progress :=
  match o.contents with
  | none => .ok (some { o with contents := some text })
  | some _ => .error (.extraArgument text)

/-- Takes options of one letter, written together. -/
def takeLetters (o : Options) : List Char → Progress
  | [] => .ok (some o)
  | 'V' :: _ => .ok none
  | 'v' :: rest => { o with verbosity := o.verbosity + 1 }.takeLetters rest
  | 'f' :: rest =>
    if o.fromFile then .error (.repeatedOption "-f")
    else { o with fromFile := true }.takeLetters rest
  | c :: _ => .error (.unknownOption (String.ofList ['-', c]))

/-- Takes one argument that stands before any double dash. -/
def take (o : Options) (arg : String) : Progress :=
  match arg.toList with
  | ['-'] => o.takeContents arg
  | '-' :: '-' :: _ =>
    if arg = "--file" then o.takeFile arg
    else if arg = "--verbose" then o.takeVerbose
    else if arg = "--version" then .ok none
    else .error (.unknownOption arg)
  | '-' :: letters => o.takeLetters letters
  | _ => o.takeContents arg

/-- The request of the arguments, once all are seen. -/
def finish (o : Options) : Except UsageError Request :=
  match o.contents with
  | some contents => .ok (.run o.fromFile o.verbosity contents)
  | none => .error .missingArgument

end Options

/-- Reads arguments after a double dash, none of which is an option. -/
def readPlain : Options → List String → Except UsageError Request
  | o, [] => o.finish
  | o, arg :: rest =>
    match o.takeContents arg with
    | .ok (some o) => readPlain o rest
    | .ok none => .ok .version
    | .error e => .error e

/-- Reads arguments, options among them. -/
def readFrom : Options → List String → Except UsageError Request
  | o, [] => o.finish
  | o, arg :: rest =>
    if arg = "--" then readPlain o rest
    else
      match o.take arg with
      | .ok (some o) => readFrom o rest
      | .ok none => .ok .version
      | .error e => .error e

/-- What the arguments ask for. -/
def read (args : List String) : Except UsageError Request := readFrom {} args

/-- What the command prints and the status it ends with. -/
structure Report where
  status : Nat
  output : String
  errors : String
deriving DecidableEq, Repr

/-- The line that names the command and its version. -/
def versionLine : String := "amython 0.1.0\n"

/-- The events that are logged at a verbosity, in the order they happened. -/
def eventLog (verbosity : Nat) (m : Machine) : String :=
  String.join ((m.events.reverse.filter (·.isLogged verbosity)).map fun e => e.text ++ "\n")

/-- The lines about a failure: the place in the source, if there is one, then the failure. -/
def failureText (source : String) (f : Failure) : String :=
  let place := match f.position? with
    | some p => Excerpt.text source p ++ "\n"
    | none => ""
  let (errorClass, message) := f.report
  place ++ errorClass.text ++ ": " ++ message ++ "\n"

/-- Runs a program text. -/
def runSource (fuel verbosity : Nat) (source : String) : Report :=
  let (result, m) := (interpret fuel source).run (.fresh none)
  let log := eventLog verbosity m
  match result with
  | .ok () => ⟨0, m.sink.text, log⟩
  | .error f => ⟨1, m.sink.text, log ++ failureText source f⟩

/-- The whole command. -/
def report (fuel : Nat) (readFile : String → Except ReadFailure String) (args : List String) :
    Report :=
  match read args with
  | .error e => ⟨2, "", "error: " ++ e.message ++ "\n"⟩
  | .ok .version => ⟨0, versionLine, ""⟩
  | .ok (.run false verbosity contents) => runSource fuel verbosity contents
  | .ok (.run true verbosity name) =>
    match readFile name with
    | .ok source => runSource fuel verbosity source
    | .error e =>
      ⟨1, "", "Failed to read the input file '" ++ name ++ "': " ++ e.text ++ "\n"⟩

end BraceScript.CommandLine
