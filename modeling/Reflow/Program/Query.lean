import Reflow.Body
import Reflow.Program.Table
import Reflow.Program.View

/-!
# Queries on tables

A function as it is read from tables, every index and every difference with a check.
-/

namespace Reflow.Program

def slice? {α : Type} (as : List α) (range : Nat × Nat) : Option (List α) :=
  if range.1 ≤ range.2 ∧ range.2 ≤ as.length then some ((as.take range.2).drop range.1) else none

def FunctionRow.local? (f : FunctionRow) (b : Nat) : Option BlockId :=
  if f.blocks.1 ≤ b then some (b - f.blocks.1) else none

def ValueRow.kind? (row : ValueRow) (number : Nat) (uses : List Var) (targets : List BlockId) :
    Option (Except EmitError Kind) :=
  match row.op with
  | .any | .const | .binary _ | .copy | .call | .ret => some (.ok .plain)
  | .init => some (.ok .init)
  | .vuse => some (.ok .virtual)
  | .label => some (.ok .label)
  | .condbr => do return .ok (.conditional (← uses[0]?) (← targets[0]?) (← targets[1]?))
  | .loop => do return .ok (.loop (← uses[0]?) (← targets[0]?) (← targets[1]?))
  | .multiif => some (.ok (.multiway (targets.mapIdx fun i target => (uses[i]?, target))))
  | .switch => do return .ok (.switch (← uses[0]?) (groupArms (row.cases.zip targets)))
  | .goto => some (.ok (.jump targets))
  | .asm => some (.error (.unsupported (.assembly number)))
  | .argument | .phi | .vphi | .br => some (.error (.unsupported (.statement row.op.name)))

def ValueRow.text? (row : ValueRow) (names : Names) (uses : List Var) (targets : List BlockId) :
    Option (Except EmitError String) :=
  let operand := fun i => (uses[i]?).map names.var
  let operands := FunctionOf.operandList names uses
  match row.op with
  | .any => some (.ok s!"{row.name} = any({operands});")
  | .const => do
    let n ← row.immediates[0]?
    return .ok s!"{row.name} = {n};"
  | .binary op => do
    let left ← operand 0
    let right ← operand 1
    return .ok s!"{row.name} = {left} {op.symbol} {right};"
  | .copy => do
    let source ← operand 0
    return .ok s!"{row.name} = {source};"
  | .call =>
    let call := s!"{row.symbol}({operands});"
    some (.ok (if row.name.isEmpty then call else s!"{row.name} = {call}"))
  | .init => do
    let var ← operand 0
    let n ← row.immediates[0]?
    return .ok s!"{var} = {n};"
  | .label => some (.ok s!"{row.symbol}:;")
  | .ret =>
    match uses with
    | [] => some (.ok "return;")
    | v :: _ => some (.ok s!"return {names.var v};")
  | .condbr | .multiif => do
    let cond ← operand 0
    return .ok s!"if ({cond})"
  | .loop => do
    let cond ← operand 0
    return .ok s!"while ({cond})"
  | .switch => do
    let selector ← operand 0
    return .ok s!"switch ({selector})"
  | .goto => do
    let target ← targets[0]?
    return (names.label target).map fun label => s!"goto {label};"
  | .vuse | .asm | .argument | .phi | .vphi | .br => some (.error (.unsupported (.rendering row.op.name)))

def addPred? (p : BlockId) (lists : List (List BlockId)) (b : BlockId) : Option (List (List BlockId)) := do
  let known ← lists[b]?
  return if p ∈ known then lists else lists.set b (known ++ [p])

namespace Tables

variable (t : Tables) (f : FunctionRow)

def reads? (row : ValueRow) : Option (List Nat) :=
  slice? t.operands (row.operands.1, row.operands.1 + row.opCount)

def targets? (row : ValueRow) : Option (List Nat) :=
  slice? t.operands (row.operands.1 + row.opCount, row.operands.2)

def stmt? (v : Nat) : Option (Option Stmt) := do
  let row ← t.values[v]?
  if row.op = .br then return none
  else
    let uses ← t.reads? row
    let kind ← row.kind? v uses (← (← t.targets? row).mapM f.local?)
    return some { id := v, kind, uses, defs := if row.op.isDef && row.name ≠ "" then [v] else [] }

def slot? (row : ValueRow) (slot : Nat) : Option (BlockId × Var) := do
  let value ← t.operands[row.operands.1 + slot]?
  let block ← t.operands[row.operands.1 + row.opCount + slot]?
  return (← f.local? block, value)

def phi? (v : Nat) : Option Reflow.Phi := do
  let row ← t.values[v]?
  let incoming ← (List.range (if row.cls = .phi then row.opCount else 0)).mapM (t.slot? f row)
  return { var := v, isVirtual := row.op = .vphi, incoming }

def succs? (b : BlockId) : Option (List BlockId) := do
  let row ← t.blocks[f.blocks.1 + b]?
  let blocks ← slice? t.operands row.succs
  return (← blocks.mapM f.local?).eraseDups

def preds? : Option (List (List BlockId)) :=
  (List.range (f.blocks.2 - f.blocks.1)).foldlM (fun lists p => do (← t.succs? f p).foldlM (addPred? p) lists)
    (List.replicate (f.blocks.2 - f.blocks.1) [])

def label? (row : BlockRow) : Option (Option String) :=
  if row.phiEnd = row.last then some none
  else (t.values[row.phiEnd]?).map fun first => if first.op = .label then some first.symbol else none

def block? (b : BlockId) : Option Reflow.Block := do
  let row ← t.blocks[f.blocks.1 + b]?
  let label ← t.label? row
  let stmts ← (List.range' row.phiEnd (row.last - row.phiEnd)).mapM (t.stmt? f)
  let phis ← (List.range' row.first (row.phiEnd - row.first)).mapM (t.phi? f)
  let preds ← (← t.preds? f)[b]?
  return { id := b, number := b, label, stmts := stmts.filterMap id, succs := ← t.succs? f b, preds, phis }

def blocks? : Option (List Reflow.Block) :=
  (List.range (f.blocks.2 - f.blocks.1)).mapM (t.block? f)

def valueEnd : Nat :=
  ((t.blocks[f.blocks.2 - 1]?).map (·.last)).getD f.args.2

def names? (first last : Nat) : Option (List String) :=
  (List.range' first (last - first)).mapM fun v => (t.values[v]?).map (·.name)

def blockNames? : Option (List String) :=
  (List.range' f.blocks.1 (f.blocks.2 - f.blocks.1)).mapM fun b => (t.blocks[b]?).map (·.name)

def value? (v : Nat) : Option ValueRow :=
  if f.args.1 ≤ v ∧ v < t.valueEnd f then t.values[v]? else none

/-- The procedure of a function. Its variables and statements are the values of the program; a value of another
function has no name in it. -/
def procedure? : Option Procedure := do
  let names ← t.names? f.args.1 (t.valueEnd f)
  return {
    name := f.name
    entry := 0
    blocks := ← t.blocks? f
    varName := fun v => ((t.value? f v).map (·.name)).getD ""
    identifiers := names.filter (· ≠ "") ++ (← t.blockNames? f)
    base := 0 }

def text? (id : StmtId) (names : Names) : Option (Except EmitError String) := do
  let row ← t.value? f id
  row.text? names (← t.reads? row) (← (← t.targets? row).mapM f.local?)

def render : Renderer := fun id names =>
  (t.text? f id names).getD (.error (.unsupported (.rendering Op.argument.name)))

def emitPasses? (session : Session) (config : Config) (passes : Nat) :
    Option (List (Except EmitError Body) × Session) := do
  let p ← t.procedure? f
  return session.emitPasses config p p.analysis.toFacts (t.render f) passes

end Tables

end Reflow.Program
