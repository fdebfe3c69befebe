import Reflow.Emit.Basic
import Reflow.Program.Basic

/-!
# A function as a procedure

Blocks keep their numbers; the variables and statements of the procedure are the values of the function.
-/

namespace Reflow

def addCase (case : CaseLabel × BlockId) : List SwitchArm → List SwitchArm
  | [] => [{ labels := [case.1], target := case.2 }]
  | arm :: arms =>
    if arm.target = case.2 then { arm with labels := arm.labels ++ [case.1] } :: arms
    else arm :: addCase case arms

/-- The arms of a switch: each case goes to the arm that has its target already, or else to a new one at the end. -/
def groupArms (cases : List (CaseLabel × BlockId)) : List SwitchArm :=
  cases.foldl (fun arms case => addCase case arms) []

def Instr.kind (number : Nat) : Instr Var BlockId → Except EmitError Kind
  | any _ | const _ | binary .. | copy _ | call .. | ret _ => .ok .plain
  | init .. => .ok .init
  | vuse _ => .ok .virtual
  | label _ => .ok .label
  | condbr cond thenBlock elseBlock => .ok (.conditional cond thenBlock elseBlock)
  | loop cond body exit => .ok (.loop cond body exit)
  | multiif cond target arms otherwise =>
    .ok (.multiway ((some cond, target) :: (arms.map fun (v, b) => (some v, b)) ++
      otherwise.toList.map fun b => (none, b)))
  | switch selector arms => .ok (.switch selector (groupArms arms))
  | goto target => .ok (.jump [target])
  | asm => .error (.unsupported (.assembly number))
  | br _ => .error (.unsupported (.statement Op.br.name))

namespace Program

def numberFrom {α : Type} (start : Nat) : List α → List (Nat × α)
  | [] => []
  | a :: rest => (start, a) :: numberFrom (start + 1) rest

def Statement.view (base : Nat) (id : StmtId) (stmt : Statement Nat Nat) : Stmt where
  id := id
  kind := stmt.instr.kind (base + id)
  uses := stmt.instr.reads
  defs := if stmt.result.isSome then [id] else []

def Phi.view (var : Var) (phi : Phi Nat Nat) : Reflow.Phi where
  var := var
  isVirtual := phi.isVirtual
  incoming := phi.incoming

namespace Block

variable (block : Block Nat Nat)

def label? : Option String :=
  match block.stmts with
  | ⟨_, .label name⟩ :: _ => some name
  | _ => none

def succs : List BlockId :=
  block.targets.eraseDups

def view (base id start : Nat) (preds : List BlockId) : Reflow.Block where
  id := id
  number := id
  label := block.label?
  stmts := ((numberFrom (start + block.phis.length) block.stmts).filter fun (_, stmt) =>
    stmt.instr.op != .br).map fun (id, stmt) => stmt.view base id
  succs := block.succs
  preds := preds
  phis := (numberFrom start block.phis).map fun (var, phi) => phi.view var

end Block

namespace FunctionOf

variable (f : Function)

def preds (b : BlockId) : List BlockId :=
  ((numberFrom 0 f.blocks).filter fun (_, block) => b ∈ block.succs).map (·.1)

def viewBlocks (base : Nat) : Nat → Nat → List (Block Nat Nat) → List Reflow.Block
  | _, _, [] => []
  | id, start, block :: rest =>
    block.view base id start (f.preds id) ::
      viewBlocks base (id + 1) (start + block.values.length) rest

/-- The procedure of a function whose first value is reported under a number. -/
def procedure (base : Nat) : Procedure where
  name := f.name
  entry := 0
  blocks := f.viewBlocks base 0 f.args.length f.blocks
  varName := f.valueName
  identifiers := f.values.filterMap (·.name?) ++ f.blocks.map (·.name)
  base := base

/-! ## Text of statements -/

def operandList (names : Names) (operands : List Var) : String :=
  ", ".intercalate (operands.map names.var)

def renderInstr (names : Names) (dest : String) : Instr Var BlockId → Except EmitError String
  | .any operands => .ok s!"{dest} = any({operandList names operands});"
  | .const n => .ok s!"{dest} = {n};"
  | .binary op left right => .ok s!"{dest} = {names.var left} {op.symbol} {names.var right};"
  | .copy source => .ok s!"{dest} = {names.var source};"
  | .call callee operands =>
    let call := s!"{callee}({operandList names operands});"
    .ok (if dest.isEmpty then call else s!"{dest} = {call}")
  | .init var n => .ok s!"{names.var var} = {n};"
  | .label name => .ok s!"{name}:;"
  | .ret none => .ok "return;"
  | .ret (some v) => .ok s!"return {names.var v};"
  | .condbr cond .. => .ok s!"if ({names.var cond})"
  | .multiif cond .. => .ok s!"if ({names.var cond})"
  | .loop cond .. => .ok s!"while ({names.var cond})"
  | .switch selector _ => .ok s!"switch ({names.var selector})"
  | .goto target => do
    let label ← names.label target
    return s!"goto {label};"
  | .vuse _ => .error (.unsupported (.rendering Op.vuse.name))
  | .asm => .error (.unsupported (.rendering Op.asm.name))
  | .br _ => .error (.unsupported (.rendering Op.br.name))

def render : Renderer := fun id names =>
  match f.values[id]? with
  | some (.statement stmt) => renderInstr names (stmt.result.getD "") stmt.instr
  | some value => .error (.unsupported (.rendering value.op.name))
  | none => .error (.unsupported (.rendering Op.argument.name))

end FunctionOf

end Program

end Reflow
