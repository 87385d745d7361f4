import BraceScript.CommandLine

/-!
# Main — the command
-/

namespace BraceScript.CommandLine

/-- The failure that a system error stands for. -/
def failureOfError : IO.Error → ReadFailure
  | .noFileOrDirectory .. => .notFound
  | .inappropriateType _ 20 _ => .notDirectory
  | .inappropriateType _ 21 _ => .isDirectory
  | .invalidArgument _ 36 _ => .nameTooLong
  | .invalidArgument _ code details
  | .permissionDenied _ code details =>
    .other (details ++ " (os error " ++ toString code.toNat ++ ")")
  | e => .other (toString e)

/-- What reading a file gives, its contents taken as text. -/
def readSource (name : String) : IO (Except ReadFailure String) := do
  try
    let bytes ← IO.FS.readBinFile name
    match String.fromUTF8? bytes with
    | some text => return .ok text
    | none => return .error .notText
  catch e => return .error (failureOfError e)

end BraceScript.CommandLine

open BraceScript in
/-- Runs the command: reads the file that the arguments name, if they name one, and prints the
report. -/
def main (args : List String) : IO UInt32 := do
  let contents ← match CommandLine.read args with
    | .ok (.run true _ name) => CommandLine.readSource name
    | _ => pure (.error .notFound)
  let r := CommandLine.report ampleFuel (fun _ => contents) args
  IO.print r.output
  IO.eprint r.errors
  return UInt32.ofNat r.status
