import Reflow.CommandLine

/-!
# The program

Reads the command line and the file it names, and prints the outcome.
-/

open Reflow

def readFailure : IO.Error → String
  | .noFileOrDirectory _ _ _ => "No such file or directory (os error 2)"
  | .permissionDenied _ _ _ => "Permission denied (os error 13)"
  | error => toString error

def readText (file : String) : IO (Except String String) := do
  try
    if file = "-" then return .ok (← (← IO.getStdin).readToEnd)
    else return .ok (← IO.FS.readFile file)
  catch error => return .error (readFailure error)

def main (args : List String) : IO UInt32 := do
  let text ← match CommandLine.request? args with
    | some (.run options) => readText options.file
    | _ => pure (.ok "")
  let outcome := CommandLine.run (fun _ => text) args
  (← IO.getStdout).putStr outcome.out
  (← IO.getStderr).putStr outcome.err
  return outcome.exit.toUInt32
