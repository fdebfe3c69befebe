import Reflow.Copies.Rename
import Reflow.Procedure.Basic

/-!
# Copies in place of phis

Phis are replaced by assignments.
-/

namespace Reflow

structure Copy where
  dest : String
  source : String
  deriving Repr, DecidableEq

def Copy.text (copy : Copy) : String :=
  s!"{copy.dest} = {copy.source};"

/-- A variable made for copies, and the variable whose type it shares. -/
structure Temporary where
  name : String
  like : Var
  deriving Repr, DecidableEq

structure Copies where
  saves : List (BlockId × Copy) := []
  tails : List (BlockId × Copy) := []
  renamings : List (BlockId × Rename.Stack) := []
  temporaries : List Temporary := []
  deriving Repr

namespace Copies

variable (c : Copies)

def saved (b : BlockId) : List Copy :=
  (c.saves.filter (·.1 = b)).map (·.2)

def tail (b : BlockId) : List Copy :=
  (c.tails.filter (·.1 = b)).map (·.2)

def namesIn (b : BlockId) : Rename.Stack :=
  (c.renamings.lookup b).getD []

def count : Nat :=
  c.saves.length + c.tails.length

end Copies

def temporaryName (n k : Nat) : String :=
  s!"__t__{n}_{k}"

/-- The first candidate for the `n`-th temporary that the procedure does not use as a name. -/
def Procedure.freshName (p : Procedure) (n : Nat) : String :=
  let free := (List.range (p.identifiers.length + 1)).find? fun k =>
    temporaryName n k ∉ p.identifiers
  temporaryName n (free.getD 0)

end Reflow
