import Reflow.Analysis
import Reflow.Emit.Block
import Reflow.Layout
import Reflow.Session

/-!
# Bodies

The body of a procedure within a session: its labels for the pass, its copies, its lines, laid out as text.
-/

namespace Reflow

structure Config where
  verbose : Bool := false
  indent : Nat := 3
  deriving Repr, DecidableEq

structure Body where
  temporaries : List Temporary
  text : String
  deriving Repr, DecidableEq

def Line.piece (line : Line) : Layout.Piece :=
  { text := line.text, extra := if line.isNested then 1 else 0 }

def layOut (indent : Nat) (lines : List Line) : String :=
  Layout.layOut indent (lines.map Line.piece)

def Body.declarations (body : Body) (declare : Temporary → Except EmitError String) :
    Except EmitError String := do
  let lines ← body.temporaries.mapM declare
  return String.join (lines.map (· ++ "\n"))

def Body.intDeclarations (body : Body) : String :=
  String.join (body.temporaries.map fun temporary => s!"int {temporary.name};\n")

namespace Session

def emitLines (session : Session) (config : Config) (p : Procedure) (facts : Facts)
    (render : Renderer) (labels : Labels) (copies : Copies) : Except EmitError Body × Session :=
  let emitter : Emitter :=
    { procedure := p, facts, render, labels, copies, verbose := config.verbose }
  match emitter.emit {} with
  | .ok lines progress =>
    let text := layOut config.indent lines
    let stats := ((session.stats.addJumps progress.jumps).addLabels progress.labels).addFunction
      p.name progress.traversal.rendered.length text.utf8ByteSize
    (.ok { temporaries := copies.temporaries, text }, { session with stats })
  | .error error progress =>
    let stats := (session.stats.addJumps progress.jumps).addLabels progress.labels
    (.error error, { session with stats })

def emitBody (session : Session) (config : Config) (p : Procedure) (facts : Facts)
    (render : Renderer) : Except EmitError Body × Session :=
  let (pass, session) := session.begin p.name
  match p.assignLabels pass with
  | .error error => (.error error, session)
  | .ok labels =>
    match p.copies facts with
    | .error error => (.error error, session)
    | .ok copies =>
      let session := session.record (·.addCopies copies.count copies.temporaries.length)
      session.emitLines config p facts render labels copies

def emitPasses (session : Session) (config : Config) (p : Procedure) (facts : Facts)
    (render : Renderer) : Nat → List (Except EmitError Body) × Session
  | 0 => ([], session)
  | passes + 1 =>
    let (body, session) := session.emitBody config p facts render
    let (bodies, session) := session.emitPasses config p facts render passes
    (body :: bodies, session)

end Session

end Reflow
