import Reflow.Facts
import Reflow.Graph.Dominators
import Reflow.Liveness

/-!
# Analysis of a procedure

The facts of a procedure, computed from its blocks that can be reached from the entry.
-/

namespace Reflow

structure Analysis extends Facts where
  order : List BlockId := []
  liveOuts : List (BlockId × List Var) := []
  deriving Repr

namespace Procedure

variable (p : Procedure)

def flow : Digraph BlockId where
  nodes := p.entry :: p.blocks.flatMap fun block => block.id :: block.succs
  succs := p.succs

/-! ## Post-dominators -/

/-- The reversed graph of some blocks, with an exit that comes before those without successors. -/
def reversedFlow (order : List BlockId) : Digraph (Option BlockId) :=
  let into := order.map fun b => (b, order.filter fun a => b ∈ p.succs a)
  { nodes := none :: order.map some
    succs := fun
      | none => (order.filter fun a => (p.succs a).isEmpty).map some
      | some b => ((into.lookup b).getD []).map some }

def postDominators (order : List BlockId) : List (BlockId × BlockId) :=
  ((p.reversedFlow order).immediateDominators none).filterMap fun
    | (some b, some join) => some (b, join)
    | _ => none

/-! ## All facts -/

def analysis : Analysis :=
  let order := p.flow.reversePostOrder p.entry
  let idoms := p.flow.immediateDominators p.entry
  let live := Liveness.ofAccesses (order.map p.access)
  { order
    idoms
    ipdoms := p.postDominators order
    domChildren := order.map fun b => (b, order.filter fun c => idoms.lookup c = some b)
    feedback := Ascending.pairs (p.flow.search p.entry).feedback
    liveIns := live.ins
    liveOuts := live.outs }

end Procedure

namespace Analysis

variable (a : Analysis)

def position? (b : BlockId) : Option Nat :=
  a.order.idxOf? b

def liveOut (b : BlockId) : List Var :=
  (a.liveOuts.lookup b).getD []

end Analysis

end Reflow
