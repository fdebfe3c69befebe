import Reflow.Procedure.Kind

/-!
# Procedures

A procedure is a control-flow graph in static single assignment form, as plain data: blocks with their statements,
phis, successors and predecessors.
-/

namespace Reflow

structure Stmt where
  id : StmtId
  kind : Except EmitError Kind
  uses : List Var
  defs : List Var

structure Phi where
  var : Var
  /-- A virtual phi defines its variable but needs no copies. -/
  isVirtual : Bool
  incoming : List (BlockId × Var)
  deriving Repr, DecidableEq

structure Block where
  id : BlockId
  number : Nat
  label : Option String
  stmts : List Stmt
  succs : List BlockId
  preds : List BlockId
  phis : List Phi

structure Procedure where
  name : String
  entry : BlockId
  blocks : List Block
  varName : Var → String
  identifiers : List String
  /-- Variables and statements are reported counting from here. -/
  base : Nat

def Phi.incomingFrom (phi : Phi) (block : BlockId) : Option Var :=
  phi.incoming.lookup block

namespace Procedure

variable (p : Procedure)

def blockIds : List BlockId :=
  p.blocks.map (·.id)

def block? (b : BlockId) : Option Block :=
  p.blocks.find? fun block => block.id = b

def number (b : BlockId) : Nat :=
  (p.block? b).elim b (·.number)

def label? (b : BlockId) : Option String :=
  (p.block? b).bind (·.label)

def stmts (b : BlockId) : List Stmt :=
  (p.block? b).elim [] (·.stmts)

def succs (b : BlockId) : List BlockId :=
  (p.block? b).elim [] (·.succs)

def blocksInto (b : BlockId) : List BlockId :=
  (p.blocks.filter fun block => b ∈ block.succs).map (·.id)

def preds (b : BlockId) : List BlockId :=
  (p.block? b).elim (p.blocksInto b) (·.preds)

def phis (b : BlockId) : List Phi :=
  (p.block? b).elim [] (·.phis)

/-- The number of edges into a block; the call of the procedure is one into its entry. -/
def inDegree (b : BlockId) : Nat :=
  (p.preds b).length + if b = p.entry then 1 else 0

def classified (b : BlockId) : Except EmitError (List (Stmt × Kind)) :=
  (p.stmts b).mapM fun stmt => stmt.kind.map fun kind => (stmt, kind)

def firstRealKind : List Stmt → Except EmitError (Option Kind)
  | [] => .ok none
  | stmt :: rest => do
    let kind ← stmt.kind
    if kind.isReal then return some kind else firstRealKind rest

def lastRealKind (b : BlockId) : Except EmitError (Option Kind) :=
  firstRealKind (p.stmts b).reverse

def reported (v : Nat) : Nat :=
  p.base + v

def phiSlot (phi : Phi) (slot : Nat) : Var × BlockId :=
  match phi.incoming[slot]? with
  | some (block, value) => (value, block)
  | none => (phi.var, p.entry)

end Procedure

end Reflow
