import Reflow.Program.Parser
import Reflow.Program.Query
import Reflow.Text.Number

/-!
# The command line

`cwrite [--func NAME] [--passes N] [--verbose-blocks] [--indent N] FILE` writes the bodies of the functions of a
program.
-/

namespace Reflow.CommandLine

structure Given where
  file : Option String := none
  func : Option String := none
  passes : Option Nat := none
  indent : Option Nat := none
  verboseBlocks : Bool := false

structure Options where
  file : String
  func : Option String
  passes : Nat
  indent : Nat
  verboseBlocks : Bool

inductive Request
  | version
  | run (options : Options)

structure Outcome where
  exit : Nat
  out : String := ""
  err : String := ""

namespace Given

def withFile (given : Given) (file : String) : Option Given :=
  if given.file.isSome || file.isEmpty then none else some { given with file := some file }

def withValue (given : Given) (option value : String) : Option Given :=
  match option with
  | "func" => if given.func.isSome then none else some { given with func := some value }
  | "passes" =>
    match given.passes, Text.signed? value.toList with
    | none, some n =>
      if 0 ≤ n && n < 0x100000000 then some { given with passes := some n.toNat } else none
    | _, _ => none
  | "indent" =>
    match given.indent, Text.unsigned? value.toList with
    | none, some n => if n < 0x10000000000000000 then some { given with indent := some n } else none
    | _, _ => none
  | _ => none

def options? (given : Given) : Option Options :=
  given.file.map fun file =>
    { file
      func := given.func
      passes := given.passes.getD 1
      indent := given.indent.getD 3
      verboseBlocks := given.verboseBlocks }

end Given

def splitOption (cs : List Char) : String × Option String :=
  let name := String.ofList (cs.takeWhile (· ≠ '='))
  match cs.dropWhile (· ≠ '=') with
  | [] => (name, none)
  | _ :: value => (name, some (String.ofList value))

def isValue (arg : String) : Bool :=
  arg = "-" || arg.toList.head? ≠ some '-'

def readFiles (given : Given) : List String → Option Given
  | [] => some given
  | arg :: rest => (given.withFile arg).bind fun given => readFiles given rest

inductive Arg
  | file (file : String)
  | version
  | verboseBlocks
  | option (name : String) (value : Option String)
  | endOfOptions
  | unknown

def Arg.ofString (arg : String) : Arg :=
  match arg.toList with
  | ['-', '-'] => endOfOptions
  | '-' :: '-' :: cs =>
    match splitOption cs with
    | ("version", none) => version
    | ("verbose-blocks", none) => verboseBlocks
    | (name, value) => option name value
  | '-' :: 'V' :: _ => version
  | '-' :: _ :: _ => unknown
  | _ => file arg

/-- Takes the arguments, where `waiting` is the option whose value comes next. -/
def readArgs (given : Given) : Option String → List String → Option Request
  | none, [] => given.options?.map .run
  | some _, [] => none
  | some name, arg :: rest =>
    if isValue arg then (given.withValue name arg).bind fun given => readArgs given none rest
    else none
  | none, arg :: rest =>
    match Arg.ofString arg with
    | .file file => (given.withFile file).bind fun given => readArgs given none rest
    | .version => some .version
    | .verboseBlocks =>
      if given.verboseBlocks then none else readArgs { given with verboseBlocks := true } none rest
    | .option name (some value) =>
      (given.withValue name value).bind fun given => readArgs given none rest
    | .option name none => readArgs given (some name) rest
    | .endOfOptions => ((readFiles given rest).bind Given.options?).map .run
    | .unknown => none

def request? (args : List String) : Option Request :=
  readArgs {} none args

def functionText (indent : Nat) (name : String) (args : List String) (body : Body) : String :=
  let pad := String.ofList (List.replicate indent ' ')
  let lines := Text.linesOf body.intDeclarations ++ Text.linesOf body.text
  let padded := lines.map fun line => if line.isEmpty then "" else pad ++ line
  let args := ", ".intercalate args
  let all := s!"{name}({args})" :: "\x7b" :: padded ++ ["\x7d"]
  String.join (all.map (· ++ "\n"))

def Outcome.addBody (outcome : Outcome) (indent : Nat) (name : String) (args : List String) :
    Except EmitError Body → Outcome
  | .ok body => { outcome with out := outcome.out ++ functionText indent name args body }
  | .error error =>
    { outcome with exit := 1, err := outcome.err ++ s!"cwrite: {name}: {error.message}\n" }

def writeFunction (options : Options) (t : Program.Tables) (f : Program.FunctionRow)
    (state : Session × Outcome) : Option (Session × Outcome) := do
  let config : Config := { verbose := options.verboseBlocks, indent := options.indent }
  let args ← t.names? f.args.1 f.args.2
  let (bodies, session) ← t.emitPasses? f state.1 config options.passes
  return (session, bodies.foldl (fun outcome body => outcome.addBody options.indent f.name args body) state.2)

def writeFunctions (options : Options) (t : Program.Tables) : Outcome :=
  let asked := t.functions.filter fun f => !options.func.any (· ≠ f.name)
  (asked.foldl (fun state f => (writeFunction options t f state).getD state) ({}, { exit := 0 })).2

def writeText (options : Options) (text : String) : Outcome :=
  match Program.parseTables text with
  | .ok t => writeFunctions options t
  | .error diagnosis => { exit := 1, err := s!"cwrite: {options.file}: {diagnosis.message}\n" }

def usage : Outcome :=
  { exit := 2
    err := "usage: cwrite [--func NAME] [--passes N] [--verbose-blocks] [--indent N] FILE\n" }

def unreadable (file reason : String) : Outcome :=
  { exit := 1, err := s!"cwrite: cannot read {file}: {reason}\n" }

def run (read : String → Except String String) (args : List String) : Outcome :=
  match request? args with
  | none => usage
  | some .version => { exit := 0, out := "cwrite 0.1.0\n" }
  | some (.run options) =>
    match read options.file with
    | .ok text => writeText options text
    | .error reason => unreadable options.file reason

end Reflow.CommandLine
