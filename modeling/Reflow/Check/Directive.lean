import Reflow.Text.Blank
import Reflow.Text.Lines

/-!
# Scripts

A script is a program text with directives in comment lines: `RUN` lines say what to run on the program, `CHECK` lines
what the output has to hold.
-/

namespace Reflow.Check

inductive Directive
  | check (pattern : String)
  /-- A later line holds the pattern, which names a part of the output. -/
  | label (pattern : String)
  | next (pattern : String)
  | empty
  /-- No line before the next match holds the pattern. -/
  | not (pattern : String)
  | comment (text : String)
  deriving Repr, DecidableEq

structure Run where
  command : String
  args : List String
  deriving Repr, DecidableEq

structure Script where
  runs : List Run := []
  directives : List Directive := []
  program : List String := []
  deriving Repr, DecidableEq

inductive ScriptLine
  | run (run : Option Run)
  | directive (directive : Directive)
  | program (line : String)

def Run.ofText? (text : List Char) : Option Run :=
  match (Text.words text).map String.ofList with
  | [] => none
  | command :: args => some { command, args }

def patternMarks : List (String × (String → Directive)) :=
  [("; CHECK-LABEL:", .label), ("; CHECK-NEXT:", .next), ("; CHECK-NOT:", .not),
    ("; CHECK-EMPTY", fun _ => .empty), ("; CHECK:", .check), ("; COM:", .comment)]

def directive? (line : List Char) : Option Directive :=
  patternMarks.findSome? fun (mark, build) =>
    (Text.after? mark.toList line).map fun pattern => build (String.ofList (Text.trim pattern))

def ScriptLine.ofLine (line : List Char) : ScriptLine :=
  let trimmed := Text.trim line
  match Text.after? "; RUN:".toList trimmed with
  | some command => .run (Run.ofText? command)
  | none =>
    match directive? trimmed with
    | some d => .directive d
    | none => .program (String.ofList line)

namespace Script

def addLine (line : ScriptLine) (script : Script) : Script :=
  match line with
  | .run run => { script with runs := run.toList ++ script.runs }
  | .directive d => { script with directives := d :: script.directives }
  | .program line => { script with program := line :: script.program }

def parse (text : String) : Script :=
  (Text.lines text.toList).foldr (fun line => addLine (.ofLine line)) {}

def programText (script : Script) : String :=
  "\n".intercalate script.program

end Script

end Reflow.Check
