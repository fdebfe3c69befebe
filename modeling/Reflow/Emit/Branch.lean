import Reflow.Emit.Basic

/-!
# Branches

How a block goes on after its own statements, by the kind of its last one.
-/

namespace Reflow

/-- Renders a block; the flag asks for exactly one statement, by braces where needed. -/
abbrev Recurse := BlockId → Bool → Emission (List Line)

namespace Emitter

open Emission

variable (e : Emitter) (recurse : Recurse)

/-- The one statement of a branch to a block, which is nothing where the block follows anyway as its join. -/
def branch (target : BlockId) : Emission (List Line) := do
  let t ← traversal
  if t.isDeferred target then
    if t.leavesOpenLoop target then e.jump target true else return [.emptyBraces]
  else if t.isRendered target then e.jump target true
  else recurse target true

def headerLines (header : BlockId) : Emission (List Line) := do
  let stmts ← ofExcept (e.procedure.classified header)
  let repeated := (upToLastReal stmts).dropLast.filter fun stmt =>
    stmt.2 != .virtual && stmt.2 != .label
  let body ← repeated.mapM fun (stmt, _) => do
    return Line.stmt header stmt.id ((← e.renderStmt header stmt) ++ "\n")
  return e.saveLines header ++ body ++ e.tailLines header

def elseBack (b header : BlockId) : Emission (List Line) := do
  if ← ofExcept (e.procedure.isLoopTest header) then
    let lines ← e.headerLines header
    if lines.isEmpty then return []
    else return [.elseBranch b, .openBrace] ++ lines ++ [.closeBrace]
  else
    return .elseBranch b :: (← e.jump header true)

def elseLines (b elseBlock : BlockId) : Emission (List Line) := do
  let t ← traversal
  if t.isDeferred elseBlock then
    if t.leavesOpenLoop elseBlock then return .elseBranch b :: (← e.jump elseBlock true) else return []
  else if e.facts.isFeedback b elseBlock then e.elseBack b elseBlock
  else return .elseBranch b :: (← e.branch recurse elseBlock)

def conditional (b thenBlock elseBlock : BlockId) : Emission (List Line) := do
  let t ← traversal
  let hinted := !t.isDeferred elseBlock && !t.isJumpTarget elseBlock
  if hinted then update (·.hint elseBlock)
  let thenLines ← e.branch recurse thenBlock
  if hinted then update (·.unhint elseBlock)
  return thenLines ++ (← e.elseLines recurse b elseBlock)

def loopBody (b body exit : BlockId) : Emission (List Line) := do
  let t ← traversal
  if t.isDeferred body then return [.emptyBraces]
  else if t.isRendered body then throw (.bodyRendered body b)
  else
    update (·.openLoop exit)
    let lines ← recurse body true
    update (·.closeLoop)
    return lines

def loopExit (exit : BlockId) : Emission (List Line) := do
  let t ← traversal
  if t.isDeferred exit then
    if t.leavesOpenLoop exit then e.jump exit false else return []
  else if t.isRendered exit then e.jump exit false
  else recurse exit false

def loop (b body exit : BlockId) : Emission (List Line) := do
  let bodyLines ← loopBody recurse b body exit
  return bodyLines ++ (← e.loopExit recurse exit)

/-- The arms after the first header; `hinted` are the targets that count as jumped to until their arm is rendered. -/
def multiwayArms (b : BlockId) : Bool → List BlockId → List (Option Var × BlockId) →
    Emission (List Line)
  | _, _, [] => pure []
  | first, hinted, (cond, target) :: rest => do
    if target ∈ hinted then update (·.unhint target)
    let remaining := hinted.erase target
    let t ← traversal
    match cond with
    | none =>
      let joins := e.facts.ipdom? b == some target && t.isDeferred target &&
        !t.leavesOpenLoop target
      if !first && joins then multiwayArms b false remaining rest
      else
        let header := if first then [] else [Line.elseBranch b]
        let lines ← e.branch recurse target
        return header ++ lines ++ (← multiwayArms b false remaining rest)
    | some v =>
      let header := if first then [] else [Line.elseIf b (e.varName b v)]
      let lines ← e.branch recurse target
      return header ++ lines ++ (← multiwayArms b false remaining rest)

def misplacedArm? (arms : List (Option Var × BlockId)) : Option Nat :=
  (arms.findIdx? fun arm => arm.1.isNone).filter fun position =>
    position == 0 || position + 1 != arms.length

def multiway (b : BlockId) (arms : List (Option Var × BlockId)) : Emission (List Line) := do
  match misplacedArm? arms with
  | some position => throw (.unsupported (.unconditionalArm b position))
  | none =>
    let t ← traversal
    let later := (arms.drop 1).map (·.2)
    let hinted := (later.filter fun target => !t.isDeferred target && !t.isJumpTarget target).eraseDups
    update fun t => hinted.foldl Traversal.hint t
    e.multiwayArms recurse b true hinted arms

def switchArm (b : BlockId) (deferred : Option BlockId) (arm : SwitchArm) :
    Emission (List Line × Option BlockId) := do
  let t ← traversal
  let joins := e.facts.ipdom? b == some arm.target
  if t.leavesOpenLoop arm.target then
    return (← e.jump arm.target false, deferred)
  else if joins then
    if arm.isDefault && deferred.isNone && t.isDeferred arm.target &&
        e.facts.idom? arm.target == some b then
      update (·.claim arm.target)
      return ([.leaveSwitch], some arm.target)
    else return ([.leaveSwitch], deferred)
  else if t.isDeferred arm.target then return ([.leaveSwitch], deferred)
  else if t.isRendered arm.target then return (← e.jump arm.target false, deferred)
  else return ((← recurse arm.target true) ++ [.leaveSwitch], deferred)

def switchArms (b : BlockId) : Option BlockId → List SwitchArm →
    Emission (List Line × Option BlockId)
  | deferred, [] => pure ([], deferred)
  | deferred, arm :: rest => do
    let (lines, deferred) ← e.switchArm recurse b deferred arm
    let (more, deferred) ← switchArms b deferred rest
    return (arm.labels.map Line.caseLabel ++ lines ++ more, deferred)

def switch (b : BlockId) (arms : List SwitchArm) (deferred : Option BlockId) :
    Emission (List Line × Option BlockId) := do
  let (lines, deferred) ← e.switchArms recurse b deferred arms
  return (.openBrace :: lines ++ [.closeBrace], deferred)

def fallthroughTo (b target : BlockId) (slot : Bool) : Emission (List Line) := do
  let t ← traversal
  if t.isDeferred target then
    if t.leavesOpenLoop target then e.jump target slot else return []
  else if ← (if e.facts.isFeedback b target then ofExcept (e.procedure.isLoopTest target)
      else pure false) then
    let lines ← e.headerLines target
    if lines.isEmpty then return []
    else if slot then return .openBrace :: lines ++ [.closeBrace]
    else return lines
  else if e.procedure.inDegree target == 1 && !t.isRendered target then recurse target slot
  else e.jump target slot

def fallthrough (b : BlockId) (slot : Bool) : Emission (List Line) :=
  match e.procedure.succs b with
  | [] => pure []
  | [target] => e.fallthroughTo recurse b target slot
  | succs => throw (.unsupported (.fallthrough b succs.length))

def continuation (b : BlockId) (slot : Bool) (deferred : Option BlockId) :
    Option Kind → Emission (List Line × Option BlockId)
  | some (.conditional _ thenBlock elseBlock) => do
    return (← e.conditional recurse b thenBlock elseBlock, deferred)
  | some (.loop _ body exit) => do return (← e.loop recurse b body exit, deferred)
  | some (.multiway arms) => do return (← e.multiway recurse b arms, deferred)
  | some (.switch _ arms) => e.switch recurse b arms deferred
  | some (.jump targets) => do
    targets.forM noteJump
    return ([], deferred)
  | some .plain | some .init | some .virtual | some .label | none => do
    return (← e.fallthrough recurse b slot, deferred)

end Emitter

end Reflow
