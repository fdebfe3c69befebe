import Reflow.Emit.Branch

/-!
# Rendering a procedure

A block is rendered once: its label and saves, its statements with its copies, then what follows.
-/

namespace Reflow

namespace Emitter

open Emission

variable (e : Emitter)

def deferJoin (b : BlockId) : Emission (Option BlockId) := do
  let t ← traversal
  match e.facts.ipdom? b with
  | some join =>
    if t.isRendered join || t.isDeferred join then return none
    else
      update (·.defer join)
      return some join
  | none => return none

def stmtLines (b : BlockId) : Stmt × Kind → Emission (List Line)
  | (_, .virtual) => pure (if e.verbose then [.comment "(removed virtual statement)"] else [])
  | (stmt, kind) => do
    let text ← e.renderStmt b stmt
    if kind = .label then update (·.print b)
    return [.stmt b stmt.id text]

/-- The statements of a block with its copies, which come before a branching last statement and after any other. -/
def bodyLines (b : BlockId) (stmts : List (Stmt × Kind)) : Emission (List Line) := do
  match stmts.getLast? with
  | none => return e.tailLines b
  | some last =>
    let lines ← concat (stmts.dropLast.map (e.stmtLines b))
    let lastLines ← e.stmtLines b last
    if last.2.isBranching then return lines ++ e.tailLines b ++ lastLines
    else return lines ++ lastLines ++ e.tailLines b

def labelLines (b : BlockId) : Emission (List Line) := do
  let text ← ofExcept (e.labels.label b)
  noteLabel b
  return [.label b text]

def joinLines (recurse : Recurse) (b : BlockId) : Option BlockId → Emission (List Line)
  | none => pure []
  | some join => do
    update (·.undefer join)
    let t ← traversal
    if t.isRendered join then
      if t.isClaimed join then return [] else throw (.joinRendered join b)
    else recurse join false

def freshBlock (recurse : Recurse) (b : BlockId) (braced : Bool) : Emission (List Line) := do
  update (·.render b)
  let stmts := upToLastReal (← ofExcept (e.procedure.classified b))
  let deferred ← e.deferJoin b
  let terminator := stmts.getLast?.map (·.2)
  let loopTest := match terminator with
    | some (.loop ..) => true
    | _ => false
  let labelled ← ofExcept
    (e.labels.isNeeded e.procedure e.facts (← traversal) b loopTest)
  let opened := braced && (deferred.isSome || terminator.isSome || labelled ||
    !(e.copies.saved b).isEmpty || !(e.copies.tail b).isEmpty)
  let label ← if labelled then e.labelLines b else pure []
  let body ← e.bodyLines b stmts
  let (rest, deferred) ← e.continuation recurse b (braced && !opened) deferred terminator
  let lines := label ++ e.saveLines b ++ body ++ rest
  let filler := if braced && !opened && Line.allSilent lines then [Line.emptyStmt] else []
  let join ← joinLines recurse b deferred
  let comment :=
    if e.verbose then [Line.comment s!"Basic block {e.procedure.number b}"] else []
  let content := lines ++ filler ++ join
  return comment ++ if opened then .openBrace :: content ++ [.closeBrace] else content

/-- Renders a block unless it was rendered before. Every nested rendering takes a new block, so the
number of blocks bounds the depth. -/
def emitWithin : Nat → Recurse
  | fuel, b, braced => do
    if b ∉ e.procedure.blockIds then throw (.unknownBlock b)
    else if (← traversal).isRendered b then return []
    else
      match fuel with
      | 0 => return []
      | fuel + 1 => e.freshBlock (emitWithin fuel) b braced

def emitBlock : Recurse :=
  e.emitWithin e.procedure.blocks.length

/-- Renders the blocks that are jumped to and not yet rendered, the smallest first. Each round renders
a new block or fails. -/
def emitPending : Nat → Emission (List Line)
  | 0 => pure []
  | fuel + 1 => do
    match (← traversal).nextPending? with
    | none => return []
    | some target =>
      let lines ← e.emitBlock target false
      return lines ++ (← emitPending fuel)

def checkJumps : Emission Unit := do
  match (← traversal).nextUnlabelled? with
  | none => return ()
  | some target => throw (.danglingJump target (← ofExcept (e.labels.label target)))

def emit : Emission (List Line) := do
  let lines ← e.emitBlock e.procedure.entry false
  let pending ← e.emitPending e.procedure.blocks.length
  e.checkJumps
  return lines ++ pending

end Emitter

end Reflow
