import Reflow.Error

/-!
# The state of an emission

What an emission remembers about the blocks while it walks through a procedure: which were rendered, which are set
aside as joins, which are jumped to, which printed a label, and the loops that are open.
-/

namespace Reflow

structure Traversal where
  rendered : List BlockId := []
  /-- The joins set aside, each with the number of loops open at the time; a later entry comes first. -/
  frontier : List (BlockId × Nat) := []
  claimed : List BlockId := []
  jumpTargets : List BlockId := []
  /-- The blocks that a branch under way may still jump to, once per branch. -/
  hints : List BlockId := []
  printed : List BlockId := []
  openExits : List BlockId := []
  deriving Repr

def addNew (b : BlockId) (bs : List BlockId) : List BlockId :=
  if b ∈ bs then bs else b :: bs

namespace Traversal

variable (t : Traversal)

def isRendered (b : BlockId) : Bool :=
  b ∈ t.rendered

def render (b : BlockId) : Traversal :=
  { t with rendered := addNew b t.rendered }

def defer (join : BlockId) : Traversal :=
  { t with frontier := (join, t.openExits.length) :: t.frontier.filter (·.1 ≠ join) }

def undefer (join : BlockId) : Traversal :=
  { t with frontier := t.frontier.filter (·.1 ≠ join) }

def isDeferred (b : BlockId) : Bool :=
  (t.frontier.lookup b).isSome

def leavesOpenLoop (b : BlockId) : Bool :=
  (t.frontier.lookup b).any (· < t.openExits.length)

def claim (join : BlockId) : Traversal :=
  { t with claimed := addNew join t.claimed }

def isClaimed (join : BlockId) : Bool :=
  join ∈ t.claimed

def isJumpTarget (b : BlockId) : Bool :=
  b ∈ t.jumpTargets

def jumpTo (b : BlockId) : Traversal :=
  { t with jumpTargets := addNew b t.jumpTargets }

def hint (b : BlockId) : Traversal :=
  { t with hints := b :: t.hints }

def unhint (b : BlockId) : Traversal :=
  { t with hints := t.hints.erase b }

def isHinted (b : BlockId) : Bool :=
  b ∈ t.hints

def isPrinted (b : BlockId) : Bool :=
  b ∈ t.printed

def print (b : BlockId) : Traversal :=
  { t with printed := addNew b t.printed }

def openLoop (exit : BlockId) : Traversal :=
  { t with openExits := exit :: t.openExits }

def closeLoop : Traversal :=
  { t with openExits := t.openExits.tail }

def nextPending? : Option BlockId :=
  (t.jumpTargets.filter fun b => !t.isRendered b).min?

def nextUnlabelled? : Option BlockId :=
  (t.jumpTargets.filter fun b => !t.isPrinted b).min?

end Traversal

end Reflow
