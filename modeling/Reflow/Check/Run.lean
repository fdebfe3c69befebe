import Reflow.Body
import Reflow.Check.Match
import Reflow.Program.Listing
import Reflow.Program.Parser
import Reflow.Program.View
import Reflow.Text.Number

/-!
# Running a script

Every run of a script gives one output for the whole program, which all directives are matched against.
-/

namespace Reflow.Check

structure RunOptions where
  listing : Bool := false
  order : Bool := false
  dominators : Bool := false
  bodies : Bool := false
  verbose : Bool := false
  passes : Int := 1

def passes? (arg : String) : Option Int :=
  (Text.signed? arg.toList).filter fun n => -0x80000000 ≤ n && n < 0x80000000

def RunOptions.read (options : RunOptions) : List String → Except CheckError RunOptions
  | [] => .ok options
  | "--print-ir" :: rest => { options with listing := true }.read rest
  | "--print-rpo" :: rest => { options with order := true }.read rest
  | "--print-doms" :: rest => { options with dominators := true }.read rest
  | "--emit" :: rest => { options with bodies := true }.read rest
  | "--verbose-blocks" :: rest => { options with verbose := true }.read rest
  | "--passes" :: rest =>
    match rest.head?.bind passes? with
    | some passes => { options with passes }.read rest
    | none => .error .passesNumber
  | _ :: rest => options.read rest

def orderLines (f : Program.Function) (analysis : Analysis) : List String :=
  s!"RPO for func {f.name}" ::
    ((Program.numberFrom 0 analysis.order).map fun (i, b) => s!"{i}: {f.blockName b}") ++ ["End RPO"]

def dominatorLines (f : Program.Function) (analysis : Analysis) : List String :=
  let name := fun b? => (b?.map f.blockName).getD "-"
  s!"Dominators for {f.name}" ::
    (analysis.order.map fun b =>
      s!"{f.blockName b}: idom {name (analysis.idom? b)}, ipdom {name (analysis.ipdom? b)}") ++
    (analysis.feedback.map fun (a, b) => s!"feedback {f.blockName a} -> {f.blockName b}") ++
    ["End Dominators"]

def trimEnd (s : String) : String :=
  String.ofList (Text.trimEnd s.toList)

def bodyLines (f : Program.Function) (body : Except EmitError Body) : List String :=
  let inner := match body with
    | .error error => ["error: " ++ error.message]
    | .ok body =>
      let declarations := body.intDeclarations
      (if declarations.isEmpty then [] else [trimEnd declarations]) ++ [trimEnd body.text]
  s!"Function {f.name}" :: inner ++ [s!"End Function {f.name}"]

def functionLines (options : RunOptions) (base : Nat) (session : Session) :
    List Program.Function → List String
  | [] => []
  | f :: rest =>
    let p := f.procedure base
    let analysis := p.analysis
    let order := if options.order then orderLines f analysis else []
    let dominators := if options.dominators then dominatorLines f analysis else []
    let passes := if options.bodies then options.passes.toNat else 0
    let (bodies, session) :=
      session.emitPasses { verbose := options.verbose } p analysis.toFacts f.render passes
    order ++ dominators ++ bodies.flatMap (bodyLines f) ++
      functionLines options (base + f.values.length) session rest

def output (program : Program) (run : Run) : Except CheckError String := do
  let options ← RunOptions.read {} run.args
  let listing := if options.listing then [program.listing] else []
  return "\n".intercalate (listing ++ functionLines options 0 {} program.functions)

def runAll (program : Program) (directives : List Directive) : List Run → Report
  | [] => {}
  | run :: rest =>
    match output program run with
    | .error error => .failed error
    | .ok output =>
      ((matchOutput output directives).andThen (runAll program directives rest)).noting output

def Script.run (script : Script) : Report :=
  let refuses := script.runs.any (·.command = "not")
  match Program.parse script.programText with
  | .ok program =>
    if refuses then .failed .accepted else runAll program script.directives script.runs
  | .error diagnosis =>
    if refuses then matchOutput ("error: " ++ diagnosis.message) script.directives
    else .failed (.refused diagnosis.message)

end Reflow.Check
