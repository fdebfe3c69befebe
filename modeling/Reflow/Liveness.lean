import Reflow.Ascending
import Reflow.Procedure.Basic

/-!
# Liveness

The variables that are still to be read at the two ends of a block.
-/

namespace Reflow

structure Access where
  block : BlockId
  defined : List Var
  reads : List Var
  edgeReads : List Var
  succs : List BlockId

structure Liveness where
  ins : List (BlockId × List Var)
  outs : List (BlockId × List Var)
  deriving Repr, DecidableEq

namespace Liveness

def listed (table : List (BlockId × List Var)) (b : BlockId) : List Var :=
  (table.lookup b).getD []

def put (table : List (BlockId × List Var)) (b : BlockId) (vars : List Var) : List (BlockId × List Var) :=
  table.map fun entry => if entry.1 = b then (b, vars) else entry

def revise (a : Access) (live : Liveness) : Liveness :=
  let atEnd := Ascending.nats (a.edgeReads ++ a.succs.flatMap (listed live.ins))
  { ins := put live.ins a.block (Ascending.nats (a.reads ++ atEnd.filter (· ∉ a.defined)))
    outs := put live.outs a.block atEnd }

def sweep (accesses : List Access) (live : Liveness) : Liveness :=
  accesses.foldr revise live

def settle (accesses : List Access) : Nat → Liveness → Liveness
  | 0, live => live
  | fuel + 1, live =>
    let next := sweep accesses live
    if next = live then live else settle accesses fuel next

def start (accesses : List Access) : Liveness where
  ins := accesses.map fun a => (a.block, Ascending.nats a.reads)
  outs := accesses.map fun a => (a.block, [])

/-- Each sweep takes a variable at least one block further back, which bounds the sweeps. -/
def ofAccesses (accesses : List Access) : Liveness :=
  settle accesses (accesses.length + 1) (start accesses)

end Liveness

namespace Procedure

variable (p : Procedure)

def readFirst (defined : List Var) : List Stmt → List Var
  | [] => []
  | stmt :: rest =>
    (stmt.uses.filter (· ∉ defined)) ++ readFirst (stmt.defs ++ defined) rest

def edgeReads (b : BlockId) : List Var :=
  (p.succs b).flatMap fun succ =>
    (p.phis succ).filterMap fun phi => if phi.isVirtual then none else phi.incomingFrom b

def access (b : BlockId) : Access :=
  let phiVars := (p.phis b).map (·.var)
  { block := b
    defined := phiVars ++ (p.stmts b).flatMap (·.defs)
    reads := readFirst phiVars (p.stmts b)
    edgeReads := p.edgeReads b
    succs := p.succs b }

end Procedure

end Reflow
