/-!
# Why a body cannot be emitted

Blocks, variables and statements are numbers, local to their procedure.
-/

namespace Reflow

abbrev BlockId := Nat

abbrev Var := Nat

abbrev StmtId := Nat

inductive Unsupported
  | assembly (stmt : Nat)
  | statement (operation : String)
  | rendering (operation : String)
  | unconditionalArm (block : BlockId) (position : Nat)
  | fallthrough (block : BlockId) (successors : Nat)
  | other (what : String)
  deriving Repr, DecidableEq

inductive EmitError
  | missingLabel (block : BlockId)
  | danglingJump (block : BlockId) (label : String)
  | reachedTwice (block : BlockId)
  /-- A phi, by its reported number, names an incoming block that does not precede its own block. -/
  | unknownPhiPredecessor (phi : Nat) (incoming block : BlockId)
  | unknownBlock (block : BlockId)
  | joinRendered (join block : BlockId)
  | bodyRendered (body header : BlockId)
  | unsupported (what : Unsupported)
  deriving Repr, DecidableEq

namespace Unsupported

def message : Unsupported → String
  | assembly stmt => s!"inline assembly statement s{stmt}"
  | statement operation => s!"'{operation}' used as a statement"
  | rendering operation => s!"rendering of '{operation}'"
  | unconditionalArm block position =>
    s!"multi-way branch of BB{block} with an unconditional arm at position {position}"
  | fallthrough block successors => s!"BB{block} falls through to {successors} successors"
  | other what => what

end Unsupported

namespace EmitError

def message : EmitError → String
  | missingLabel block => s!"No label assigned to BB{block}, which is the target of a jump"
  | danglingJump block label => s!"Jump to BB{block} ({label}) but the label was never printed"
  | reachedTwice block =>
    s!"Dominator relation is not a tree: BB{block} reached twice by the dominator tree walk"
  | unknownPhiPredecessor phi incoming block =>
    s!"Phi v{phi} names BB{incoming} as incoming block but it is not a predecessor of BB{block}"
  | unknownBlock block => s!"Unknown block BB{block}"
  | joinRendered join block =>
    s!"Inconsistent recursion: join BB{join} of BB{block} was rendered before the block was done"
  | bodyRendered body header =>
    s!"Inconsistent recursion: loop body BB{body} rendered before its header BB{header}"
  | unsupported what => s!"Not yet supported: {what.message}"

end EmitError

end Reflow
