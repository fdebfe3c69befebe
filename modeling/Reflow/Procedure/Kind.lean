import Reflow.Error

/-!
# Kinds of statements

The closed set of statement shapes an emission tells apart.
-/

namespace Reflow

inductive CaseLabel
  | value (n : Int)
  | otherwise
  deriving Repr, DecidableEq

structure SwitchArm where
  labels : List CaseLabel
  target : BlockId
  deriving Repr, DecidableEq

def SwitchArm.isDefault (arm : SwitchArm) : Bool :=
  .otherwise ∈ arm.labels

inductive Kind
  | plain
  | init
  | virtual
  | label
  | conditional (cond : Var) (thenBlock elseBlock : BlockId)
  | loop (cond : Var) (body exit : BlockId)
  /-- A chain of conditions; an arm without one is taken when the conditions before it fail. -/
  | multiway (arms : List (Option Var × BlockId))
  | switch (selector : Var) (arms : List SwitchArm)
  | jump (targets : List BlockId)
  deriving Repr, DecidableEq

namespace Kind

def isBranching : Kind → Bool
  | plain | init | virtual | label => false
  | conditional .. | loop .. | multiway _ | switch .. | jump _ => true

/-- Whether a statement of this kind can be the last one a block prints. -/
def isReal : Kind → Bool
  | init | virtual => false
  | _ => true

def targets : Kind → List BlockId
  | plain | init | virtual | label => []
  | conditional _ thenBlock elseBlock => [thenBlock, elseBlock]
  | loop _ body exit => [body, exit]
  | multiway arms => arms.map (·.2)
  | switch _ arms => arms.map (·.target)
  | jump targets => targets

end Kind

end Reflow
