import Reflow.Program.Basic
import Reflow.Program.Error

/-!
# Flat tables

The functions, blocks and values of a program in one table each, numbered through the whole program.
-/

namespace Reflow.Program

inductive ValueClass
  | argument
  | phi
  | normal
  | terminator
  deriving Repr, DecidableEq

structure FunctionRow where
  name : String
  blocks : Nat × Nat
  args : Nat × Nat
  deriving Repr, DecidableEq

/-- A block, by its ranges of successors and values; its phis end at `phiEnd`. -/
structure BlockRow where
  name : String
  succs : Nat × Nat
  first : Nat
  phiEnd : Nat
  last : Nat
  deriving Repr, DecidableEq

structure ValueRow where
  name : String
  cls : ValueClass
  op : Op
  /-- How many of the operands are values. -/
  opCount : Nat := 0
  operands : Nat × Nat := (0, 0)
  symbol : String := ""
  immediates : List Int := []
  cases : List CaseLabel := []
  deriving Repr, DecidableEq

structure Tables where
  functions : List FunctionRow := []
  blocks : List BlockRow := []
  values : List ValueRow := []
  operands : List Nat := []
  deriving Repr, DecidableEq

structure Reference where
  name : String
  place : Nat

structure Builder where
  tables : Tables
  values : List (String × Nat) := []
  blocks : List (String × Nat) := []
  valueRefs : List Reference := []
  blockRefs : List Reference := []
  /-- The successors of the block under way, which are listed again behind its values. -/
  successors : List String := []

namespace Builder

variable (b : Builder)

def define (name? : Option String) : Builder :=
  { b with values := b.values ++ name?.toList.map fun name => (name, b.tables.values.length) }

def pushValue (name : String) : Builder :=
  { b with
    valueRefs := b.valueRefs ++ [⟨name, b.tables.operands.length⟩]
    tables.operands := b.tables.operands ++ [0] }

def pushBlock (name : String) : Builder :=
  { b with
    blockRefs := b.blockRefs ++ [⟨name, b.tables.operands.length⟩]
    tables.operands := b.tables.operands ++ [0] }

def pushTarget (name : String) : Builder :=
  { b.pushBlock name with successors := b.successors ++ [name] }

def countValue (counted : Builder × Nat) (name : String) : Builder × Nat :=
  (counted.1.pushValue name, counted.2 + 1)

/-- Pushes the operands of a statement and counts the values where their number is not fixed. -/
def pushOperands (instr : Instr String String) : Builder × Nat :=
  let count := instr.op.info.operands.getD 0
  match instr with
  | .const _ | .label _ | .asm => (b, count)
  | .binary _ left right => ((b.pushValue left).pushValue right, count)
  | .copy source | .vuse source | .init source _ => (b.pushValue source, count)
  | .any operands | .call _ operands => operands.foldl countValue (b, count)
  | .ret none => (b, count)
  | .ret (some result) => (b.pushValue result, 1)
  | .br target | .goto target => (b.pushTarget target, count)
  | .condbr cond thenBlock elseBlock => (((b.pushValue cond).pushTarget thenBlock).pushTarget elseBlock, count)
  | .loop cond body exit => (((b.pushValue cond).pushTarget body).pushTarget exit, count)
  | .multiif cond target arms otherwise =>
    let conds := cond :: arms.map (·.1)
    let targets := target :: arms.map (·.2) ++ otherwise.toList
    let (b, count) := conds.foldl countValue (b, count)
    (targets.foldl pushTarget b, count)
  | .switch selector arms => (arms.foldl (fun b arm => b.pushTarget arm.2) (b.pushValue selector), count)

def addRow (row : ValueRow) : Builder :=
  { b with tables.values := b.tables.values ++ [row] }

def addArgument (name : String) : Builder :=
  (b.define (some name)).addRow { name, cls := .argument, op := .argument }

def addPhi (phi : Phi String String) : Builder :=
  let values := phi.incoming.foldl (fun b slot => b.pushValue slot.2) (b.define (some phi.name))
  let filled := phi.incoming.foldl (fun b slot => b.pushBlock slot.1) values
  filled.addRow
    { name := phi.name
      cls := .phi
      op := phi.op
      opCount := phi.incoming.length
      operands := (b.tables.operands.length, filled.tables.operands.length) }

def addStatement (stmt : Statement String String) : Builder :=
  let (filled, opCount) := (b.define stmt.result).pushOperands stmt.instr
  filled.addRow
    { name := stmt.result.getD ""
      cls := if stmt.instr.op.isTerminator then .terminator else .normal
      op := stmt.instr.op
      opCount
      operands := (b.tables.operands.length, filled.tables.operands.length)
      symbol := stmt.instr.symbol
      immediates := stmt.instr.immediates
      cases := stmt.instr.cases }

def addBlock (block : Block String String) : Builder :=
  let opened := { b with blocks := b.blocks ++ [(block.name, b.tables.blocks.length)], successors := [] }
  let withPhis := block.phis.foldl addPhi opened
  let filled := block.stmts.foldl addStatement withPhis
  let closed := filled.successors.foldl pushBlock filled
  { closed with
    tables.blocks := closed.tables.blocks ++
      [{ name := block.name
         succs := (filled.tables.operands.length, closed.tables.operands.length)
         first := b.tables.values.length
         phiEnd := withPhis.tables.values.length
         last := filled.tables.values.length }] }

end Builder

def fillIn (known : List (String × Nat)) (undefined : String → ParseError) (operands : List Nat)
    (refs : List Reference) : Except ParseError (List Nat) :=
  refs.foldlM (fun operands ref =>
    match known.lookup ref.name with
    | some number => .ok (operands.set ref.place number)
    | none => .error (undefined ref.name)) operands

def Tables.build (t : Tables) (f : FunctionOf String String) : Except ParseError Tables := do
  let withArgs := f.args.foldl Builder.addArgument { tables := t }
  let filled := f.blocks.foldl Builder.addBlock withArgs
  let operands ← fillIn filled.values .undefinedValue filled.tables.operands filled.valueRefs
  let operands ← fillIn filled.blocks .undefinedBlock operands filled.blockRefs
  return { filled.tables with
    operands
    functions := filled.tables.functions ++
      [{ name := f.name
         blocks := (t.blocks.length, filled.tables.blocks.length)
         args := (t.values.length, withArgs.tables.values.length) }] }

end Reflow.Program
