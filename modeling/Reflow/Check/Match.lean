import Reflow.Check.Directive

/-!
# Matching an output

The directives are taken in order against the lines of an output.
-/

namespace Reflow.Check

inductive CheckError
  | notFound (mark pattern : String)
  | noMoreLines (pattern : String)
  | otherLine (pattern line : String)
  | notEmpty (line : String)
  | forbidden (pattern line : String)
  | accepted
  | refused (message : String)
  | passesNumber
  deriving Repr, DecidableEq

def CheckError.message : CheckError → String
  | notFound mark pattern => s!"{mark}: pattern '{pattern}' not found in output"
  | noMoreLines pattern => s!"CHECK-NEXT: no more lines, expected '{pattern}'"
  | otherLine pattern line => s!"CHECK-NEXT: expected '{pattern}' but got '{line}'"
  | notEmpty line => s!"CHECK-EMPTY: expected empty line but got '{line}'"
  | forbidden pattern line => s!"CHECK-NOT: pattern '{pattern}' found in '{line}'"
  | accepted => "Expected parse failure but succeeded"
  | refused message => message
  | passesNumber => "--passes needs a number"

structure Report where
  log : List String := []
  result : Except CheckError Unit := .ok ()

namespace Report

def failed (error : CheckError) : Report :=
  { result := .error error }

def noting (line : String) (report : Report) : Report :=
  { report with log := line :: report.log }

def andThen (first next : Report) : Report :=
  match first.result with
  | .ok _ => { next with log := first.log ++ next.log }
  | .error _ => first

end Report

def holds (pattern line : String) : Bool :=
  Text.occurs pattern.toList line.toList

def forbidden? (patterns lines : List String) : Option (String × String) :=
  patterns.findSome? fun pattern => (lines.find? (holds pattern)).map fun line => (pattern, line)

def rejecting (patterns lines : List String) (next : Report) : Report :=
  match forbidden? patterns lines with
  | some (pattern, line) => .failed (.forbidden pattern line)
  | none => next

def matchLater (mark pattern : String) (position : Nat) (pending lines : List String)
    (next : Nat → List String → Report) : Report :=
  match lines.findIdx? (holds pattern) with
  | none => .failed (.notFound mark pattern)
  | some skipped =>
    rejecting pending (lines.take skipped)
      ((next (position + skipped + 1) (lines.drop (skipped + 1))).noting
        s!"{mark}: '{pattern}' found at line {position + skipped}")

/-- Matches directives against the lines left; the patterns `pending` are forbidden up to the next match. -/
def matchFrom (position : Nat) (pending lines : List String) : List Directive → Report
  | [] => rejecting pending lines {}
  | .comment _ :: rest => matchFrom position pending lines rest
  | .not pattern :: rest => matchFrom position (pending ++ [pattern]) lines rest
  | .check pattern :: rest =>
    matchLater "CHECK" pattern position pending lines fun position lines =>
      matchFrom position [] lines rest
  | .label pattern :: rest =>
    matchLater "CHECK-LABEL" pattern position pending lines fun position lines =>
      matchFrom position [] lines rest
  | .next pattern :: rest =>
    match lines with
    | [] => .failed (.noMoreLines pattern)
    | line :: lines =>
      if holds pattern line then
        (matchFrom (position + 1) [] lines rest).noting
          s!"CHECK-NEXT: '{pattern}' matches at line {position}"
      else .failed (.otherLine pattern line)
  | .empty :: rest =>
    match lines with
    | [] => matchFrom position pending [] rest
    | line :: lines =>
      if (Text.trim line.toList).isEmpty then
        (matchFrom (position + 1) pending lines rest).noting
          s!"CHECK-EMPTY: matches at line {position}"
      else .failed (.notEmpty line)

def matchOutput (output : String) (directives : List Directive) : Report :=
  matchFrom 0 [] (Text.linesOf output) directives

end Reflow.Check
