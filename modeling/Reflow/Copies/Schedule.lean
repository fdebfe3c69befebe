import Reflow.Copies.Basic
import Reflow.Facts

/-!
# Ordering the copies of a block

The copies at the end of a block have to act like one simultaneous assignment.
-/

namespace Reflow

/-- An assignment that an edge needs: the phi `dest` of the block `target` takes the value `src`. -/
structure Pair where
  src : Var
  dest : Var
  target : BlockId
  deriving Repr, DecidableEq

def Procedure.phiPairs (p : Procedure) (b succ : BlockId) : List Phi → Except EmitError (List Pair)
  | [] => .ok []
  | phi :: rest =>
    if phi.isVirtual then phiPairs p b succ rest
    else
      match phi.incoming.find? fun slot => slot.1 ∉ p.preds succ with
      | some slot => .error (.unknownPhiPredecessor (p.reported phi.var) slot.1 succ)
      | none => do
        let pairs ← phiPairs p b succ rest
        match phi.incomingFrom b with
        | some src => return ⟨src, phi.var, succ⟩ :: pairs
        | none => return pairs

def Procedure.edgePairs (p : Procedure) (b : BlockId) : Except EmitError (List Pair) :=
  ((p.succs b).mapM fun succ => p.phiPairs b succ (p.phis succ)).map List.flatten

structure Schedule where
  ready : List Pair
  blocked : List Pair
  held : List (Var × String) := []
  moved : List (Var × Var) := []
  scope : Rename.Scope
  copies : Copies

namespace Schedule

variable (p : Procedure) (facts : Facts) (b : BlockId)

def start (pairs : List Pair) (stack : Rename.Stack) (copies : Copies) : Schedule :=
  let (ready, blocked) := pairs.partition fun pair => !pairs.any (·.src = pair.dest)
  { ready, blocked, scope := .enter stack, copies }

def isLost (v : Var) : Bool :=
  (facts.children b).any fun child => child != b && facts.isLiveIn child v

def newTemporary (s : Schedule) (like : Var) : String × Schedule :=
  let name := p.freshName s.copies.temporaries.length
  (name, { s with copies.temporaries := s.copies.temporaries ++ [⟨name, like⟩] })

def saveLost (s : Schedule) (pair : Pair) : Schedule :=
  if isLost facts b pair.dest && !s.scope.hasPushed pair.dest then
    let (temp, s) := s.newTemporary p pair.dest
    { s with
      copies.saves := s.copies.saves ++ [(pair.target, ⟨temp, p.varName pair.dest⟩)]
      scope := s.scope.push pair.dest temp }
  else s

def sourceName (s : Schedule) (v : Var) : String :=
  match s.held.lookup v, s.moved.lookup v with
  | some temp, _ => temp
  | none, some holder => p.varName holder
  | none, none => (Rename.top? s.scope.stack v).getD (p.varName v)

def addTail (s : Schedule) (copy : Copy) : Schedule :=
  { s with copies.tails := s.copies.tails ++ [(b, copy)] }

def assign (s : Schedule) (pair : Pair) : Schedule :=
  let source := s.sourceName p pair.src
  let dest := p.varName pair.dest
  if source = dest then s
  else
    let s := s.addTail b ⟨dest, source⟩
    if s.blocked.any (·.dest = pair.src) then { s with moved := (pair.src, pair.dest) :: s.moved } else s

def release (s : Schedule) (v : Var) : Schedule :=
  let (ready, blocked) := s.blocked.partition (·.dest = v)
  { s with ready := s.ready ++ ready, blocked }

def perform (s : Schedule) (pair : Pair) : Schedule :=
  ((s.saveLost p facts b pair).assign p b pair).release pair.src

def breakCycle (s : Schedule) (pair : Pair) : Schedule :=
  if s.blocked.any (·.src = pair.dest) then
    let (temp, s) := s.newTemporary p pair.dest
    { s.addTail b ⟨temp, p.varName pair.dest⟩ with held := (pair.dest, temp) :: s.held }
  else s

def runWithin : Nat → Schedule → Schedule
  | 0, s => s
  | fuel + 1, s =>
    match s.ready, s.blocked with
    | pair :: ready, _ => runWithin fuel ({ s with ready }.perform p facts b pair)
    | [], pair :: blocked =>
      runWithin fuel (({ s with blocked }.breakCycle p b pair).perform p facts b pair)
    | [], [] => s

end Schedule

/-- Orders the copies at the end of a block. Each round does one copy, so there are as many as copies. -/
def Procedure.schedule (p : Procedure) (facts : Facts) (b : BlockId) (stack : Rename.Stack)
    (copies : Copies) : Except EmitError Schedule := do
  let pairs ← p.edgePairs b
  return (Schedule.start pairs stack copies).runWithin p facts b pairs.length

end Reflow
