import Reflow.Facts
import Reflow.Procedure.Basic
import Reflow.Traversal

/-!
# Labels

Before anything is printed, every block that a jump could name gets the text of its label.
-/

namespace Reflow

structure Labels where
  texts : List (BlockId × String) := []
  jumpTargets : List BlockId := []
  deriving Repr

def repeats : List BlockId → List BlockId
  | [] => []
  | b :: rest => (if b ∈ rest then [b] else []) ++ repeats rest

namespace Procedure

variable (p : Procedure)

def labelText (pass : Nat) (b : BlockId) : String :=
  match p.label? b with
  | some label => label
  | none => s!"BB_LABEL_{p.number b}" ++ if pass > 1 then s!"_{pass}" else ""

def explicitTargets (stmts : List (Stmt × Kind)) : List BlockId :=
  stmts.flatMap fun
    | (_, .jump targets) => targets
    | _ => []

/-- The blocks that need a label because of a block. -/
def labelled (b : BlockId) (stmts : List (Stmt × Kind)) : List BlockId :=
  explicitTargets stmts ++ stmts.flatMap (fun stmt => repeats stmt.2.targets) ++
    if p.inDegree b > 1 || (p.label? b).isSome then [b] else []

def assignLabels (pass : Nat) : Except EmitError Labels := do
  let blocks ← p.blockIds.mapM fun b => (p.classified b).map fun stmts => (b, stmts)
  return {
    texts := (blocks.flatMap fun (b, stmts) => p.labelled b stmts).eraseDups.map fun b =>
      (b, p.labelText pass b)
    jumpTargets := blocks.flatMap fun (_, stmts) => explicitTargets stmts }

def endsWithSwitch (b : BlockId) : Except EmitError Bool :=
  (p.lastRealKind b).map fun
    | some (.switch ..) => true
    | _ => false

def isLoopTest (b : BlockId) : Except EmitError Bool :=
  (p.lastRealKind b).map fun
    | some (.loop ..) => true
    | _ => false

end Procedure

namespace Labels

variable (labels : Labels)

def label (b : BlockId) : Except EmitError String :=
  match labels.texts.lookup b with
  | some text => .ok text
  | none => .error (.missingLabel b)

def isLabelled (b : BlockId) : Bool :=
  (labels.texts.lookup b).isSome

def isExplicitTarget (b : BlockId) : Bool :=
  b ∈ labels.jumpTargets

/-- Whether one of some predecessors may have to jump to a block. -/
def someJumps (p : Procedure) (facts : Facts) (t : Traversal) (b : BlockId) (loopTest : Bool) :
    List BlockId → Except EmitError Bool
  | [] => .ok false
  | pred :: rest => do
    let switches ← p.endsWithSwitch pred
    let pending := !t.isRendered pred
    if switches && facts.ipdom? pred != some b then return true
    else if pending && !facts.isFeedback pred b then return true
    else if (pending || pred == b) && !loopTest then return true
    else someJumps p facts t b loopTest rest

/-- Whether a block prints its label when it is rendered in the present state. -/
def isNeeded (p : Procedure) (facts : Facts) (t : Traversal) (b : BlockId) (loopTest : Bool) :
    Except EmitError Bool :=
  if (p.label? b).isSome then .ok false
  else if labels.isExplicitTarget b || t.isJumpTarget b || t.isHinted b then .ok true
  else if p.inDegree b ≤ 1 then .ok false
  else someJumps p facts t b loopTest (p.preds b)

end Labels

end Reflow
