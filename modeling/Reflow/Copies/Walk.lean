import Reflow.Copies.Schedule

/-!
# The copies of a procedure

The blocks are taken in the order of the dominator tree, so that the names a block puts in force hold for all blocks
below it.
-/

namespace Reflow

structure CopyWalk where
  visited : List BlockId := []
  copies : Copies := {}

namespace Procedure

variable (p : Procedure) (facts : Facts)

def placeCopies (b : BlockId) (stack : Rename.Stack) (walk : CopyWalk) :
    Except EmitError (Rename.Scope × CopyWalk) := do
  let s ← p.schedule facts b stack walk.copies
  let names := s.scope.stack
  let copies :=
    if names.isEmpty then s.copies
    else { s.copies with renamings := s.copies.renamings ++ [(b, names)] }
  return (s.scope, { visited := b :: walk.visited, copies })

/-- Walks through a block and what is below it. No block may be reached twice, which bounds the depth. -/
def walkWithin : Nat → Rename.Stack × CopyWalk → BlockId → Except EmitError (Rename.Stack × CopyWalk)
  | fuel, (stack, walk), b =>
    if b ∈ walk.visited then .error (.reachedTwice b)
    else
      match fuel with
      | 0 => .ok (stack, walk)
      | fuel + 1 => do
        let (scope, walk) ← p.placeCopies facts b stack walk
        let (stack, walk) ← (facts.children b).foldlM (walkWithin fuel) (scope.stack, walk)
        return ({ scope with stack }.close, walk)

def copies : Except EmitError Copies := do
  let bound := (facts.domChildren.flatMap (·.2)).length + 1
  let (_, walk) ← p.walkWithin facts bound ([], {}) p.entry
  return walk.copies

end Procedure

end Reflow
