/-!
# Sessions

What outlives the emission of one body: how often each function was emitted, so that labels of a later pass differ
from those of an earlier one, and statistics.
-/

namespace Reflow

structure Stats where
  functions : Nat := 0
  blocks : Nat := 0
  textSize : Nat := 0
  largestSize : Nat := 0
  largestName : String := ""
  jumps : Nat := 0
  labels : Nat := 0
  copies : Nat := 0
  temporaries : Nat := 0
  deriving Repr, DecidableEq

namespace Stats

variable (stats : Stats)

def addFunction (name : String) (blocks textSize : Nat) : Stats :=
  let counted :=
    { stats with
      functions := stats.functions + 1
      blocks := stats.blocks + blocks
      textSize := stats.textSize + textSize }
  if stats.largestSize < textSize then
    { counted with largestSize := textSize, largestName := name }
  else counted

def addJumps (n : Nat) : Stats :=
  { stats with jumps := stats.jumps + n }

def addLabels (n : Nat) : Stats :=
  { stats with labels := stats.labels + n }

def addCopies (copies temporaries : Nat) : Stats :=
  { stats with
    copies := stats.copies + copies
    temporaries := stats.temporaries + temporaries }

def report : String :=
  s!"Emission Session Statistics:\n  Functions emitted: {stats.functions}\n" ++
  s!"  Blocks emitted: {stats.blocks}\n  Total text size: {stats.textSize} bytes\n" ++
  s!"  Gotos emitted: {stats.jumps}\n  Labels emitted: {stats.labels}\n" ++
  s!"  Phi copies: {stats.copies}\n  Temporaries created: {stats.temporaries}\n" ++
  if stats.largestName.isEmpty then ""
  else s!"  Largest function: {stats.largestName} ({stats.largestSize} bytes)\n"

end Stats

structure Session where
  /-- The number of passes of each function that was emitted, the last one begun first. -/
  passes : List (String × Nat) := []
  stats : Stats := {}

namespace Session

variable (session : Session)

def passesOf (name : String) : Nat :=
  (session.passes.lookup name).getD 0

def begin (name : String) : Nat × Session :=
  let pass := session.passesOf name + 1
  (pass, { session with passes := (name, pass) :: session.passes.filter (·.1 ≠ name) })

def record (change : Stats → Stats) : Session :=
  { session with stats := change session.stats }

end Session

end Reflow
