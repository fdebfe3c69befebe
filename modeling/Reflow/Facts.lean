import Reflow.Error

/-!
# Facts about the flow of control

The dominance and liveness facts an emission relies on, as tables.
-/

namespace Reflow

/-- Tables of dominance and liveness facts, by block; the first entry of a block counts. -/
structure Facts where
  idoms : List (BlockId × BlockId) := []
  ipdoms : List (BlockId × BlockId) := []
  domChildren : List (BlockId × List BlockId) := []
  liveIns : List (BlockId × List Var) := []
  feedback : List (BlockId × BlockId) := []
  deriving Repr

namespace Facts

variable (f : Facts)

def idom? (b : BlockId) : Option BlockId :=
  f.idoms.lookup b

def ipdom? (b : BlockId) : Option BlockId :=
  f.ipdoms.lookup b

def children (b : BlockId) : List BlockId :=
  (f.domChildren.lookup b).getD []

def liveIn (b : BlockId) : List Var :=
  (f.liveIns.lookup b).getD []

def isLiveIn (b : BlockId) (v : Var) : Bool :=
  v ∈ f.liveIn b

def isFeedback (source target : BlockId) : Bool :=
  (source, target) ∈ f.feedback

def isAboveWithin (a : BlockId) : Nat → BlockId → Bool
  | 0, b => a = b
  | fuel + 1, b => a = b || (f.idom? b).any (isAboveWithin a fuel)

def dominates (a b : BlockId) : Bool :=
  f.isAboveWithin a f.idoms.length b

def reversed : Facts where
  idoms := f.idoms.reverse
  ipdoms := f.ipdoms.reverse
  domChildren := f.domChildren.reverse
  liveIns := f.liveIns.reverse
  feedback := f.feedback.reverse

end Facts

end Reflow
