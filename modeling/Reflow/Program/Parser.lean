import Reflow.Program.Scanner
import Reflow.Program.Table

/-!
# Reading a program

A function is read with names and then resolved: each name is replaced by the number of the value or block it stands
for, values before blocks.
-/

namespace Reflow.Program

abbrev NamedInstr := Instr String String

abbrev NamedBlock := Block String String

/-- Runs a loop for at most as many rounds as characters are left, and one more. -/
def bounded {α : Type} (loop : Nat → Reader α) : Reader α := do
  loop ((← get).length + 1)

def nextInLine : Reader Bool := do
  match skipInLine (← get) with
  | ',' :: rest => set rest; return true
  | cs => set cs; return false

/-! ## Statements -/

def readCallOperands : Nat → Reader (List String)
  | 0 => .giveUp (return [])
  | fuel + 1 => do
    if ← nextInLine then
      let name ← readValueName
      return name :: (← readCallOperands fuel)
    else return []

def readOperands : Nat → Reader (List String)
  | 0 => .giveUp (return [])
  | fuel + 1 => do
    let cs := skipInLine (← get)
    set cs
    if cs.head? = some '%' then
      let name ← readValueName
      if ← nextInLine then return name :: (← readOperands fuel) else return [name]
    else return []

def readArm : Reader (Option String × String) := do
  expect '['
  let cs := skip (← get)
  set cs
  if cs.head? = some '%' then
    let cond ← readValueName
    expect ','
    let target ← readBlockName
    expect ']'
    return (some cond, target)
  else
    let target ← readBlockName
    expect ']'
    return (none, target)

/-- Reads the arms after the first one; an arm without a condition has to be the last. -/
def readMoreArms : Nat → Reader (List (String × String) × Option String)
  | 0 => .giveUp (return ([], none))
  | fuel + 1 => do
    if ← nextInLine then
      match ← readArm with
      | (some cond, target) =>
        let (arms, otherwise) ← readMoreArms fuel
        return ((cond, target) :: arms, otherwise)
      | (none, target) =>
        if ← nextInLine then
          let _ ← readArm
          fail .conditionBeforeLast
        else return ([], some target)
    else return ([], none)

def readMultiif : Reader NamedInstr := do
  match ← readArm with
  | (some cond, target) =>
    let (arms, otherwise) ← bounded readMoreArms
    return .multiif cond target arms otherwise
  | (none, _) => fail .firstCondition

def readCase : Reader CaseLabel := do
  let cs := skip (← get)
  set cs
  if cs.head?.any Text.isAlphabetic then
    let name ← readName
    if name = "default" then return .otherwise else fail (.expectedCase name)
  else return .value (← readNumber)

def readCases : Nat → Reader (List (CaseLabel × String))
  | 0 => .giveUp (return [])
  | fuel + 1 => do
    if ← tryChar ',' then
      expect '['
      let case ← readCase
      expect ','
      let target ← readBlockName
      expect ']'
      return (case, target) :: (← readCases fuel)
    else return []

def readSwitch : Reader NamedInstr := do
  let selector ← readValueName
  let arms ← bounded readCases
  if arms.isEmpty then fail .noCases else return .switch selector arms

def readCall : Reader NamedInstr := do
  match skipInLine (← get) with
  | '@' :: rest =>
    set rest
    let callee ← readName
    return .call callee (← bounded readCallOperands)
  | cs =>
    set cs
    fail .expectedCallee

def readRet : Reader NamedInstr := do
  let cs := skipInLine (← get)
  set cs
  if atLineEnd cs then return .ret none else return .ret (some (← readValueName))

def readTwoWay (build : String → String → String → NamedInstr) : Reader NamedInstr := do
  let cond ← readValueName
  expect ','
  let thenBlock ← readBlockName
  expect ','
  return build cond thenBlock (← readBlockName)

def readInstr : Op → Reader NamedInstr
  | .any => do return .any (← bounded readOperands)
  | .const => do return .const (← readNumber)
  | .binary op => do
    let left ← readValueName
    expect ','
    return .binary op left (← readValueName)
  | .copy => do return .copy (← readValueName)
  | .call => readCall
  | .init => do
    let var ← readValueName
    expect ','
    return .init var (← readNumber)
  | .vuse => do return .vuse (← readValueName)
  | .label => do return .label (← readName)
  | .asm => return .asm
  | .ret => readRet
  | .br => do return .br (← readBlockName)
  | .condbr => readTwoWay .condbr
  | .loop => readTwoWay .loop
  | .multiif => readMultiif
  | .switch => readSwitch
  | .goto => do return .goto (← readBlockName)
  | .argument => fail (.unknownOperation Op.argument.name)
  | .phi => fail (.unknownOperation Op.phi.name)
  | .vphi => fail (.unknownOperation Op.vphi.name)

def readOp : Reader Op := do
  let name ← readName
  match Op.ofName? name with
  | some op => return op
  | none => fail (.unknownOperation name)

def readValueOp : Reader Op := do
  let cs := skipInLine (← get)
  set cs
  if atLineEnd cs || cs.head? = some '%' then return .any else readOp

def define (defined : List String) (name : String) : Reader (List String) :=
  if name ∈ defined then fail (.repeatedValue name) else return defined ++ [name]

def readStatement (defined : List String) : Reader (Statement String String × List String) := do
  let cs := skip (← get)
  set cs
  if cs.head? = some '%' then
    let name ← readValueName
    expect '='
    let op ← readValueOp
    if !op.isDef then fail (.givesNoValue op)
    else
      let defined ← define defined name
      return (⟨some name, ← readInstr op⟩, defined)
  else
    let op ← readOp
    if op.isDef && op != .call then fail (.needsResult op)
    else return (⟨none, ← readInstr op⟩, defined)

/-! ## Phis -/

def phiAhead? (cs : List Char) : Option Bool :=
  match skip cs with
  | '%' :: rest =>
    match scanName rest with
    | none => none
    | some (_, rest) =>
      match skip rest with
      | '=' :: rest =>
        match scanName rest with
        | some ("phi", _) => some false
        | some ("vphi", _) => some true
        | _ => none
      | _ => none
  | _ => none

def readIncoming : Nat → Reader (List (String × String))
  | 0 => .giveUp (return [])
  | fuel + 1 => do
    expect '['
    let block ← readBlockName
    expect ','
    let value ← readValueName
    expect ']'
    if ← nextInLine then return (block, value) :: (← readIncoming fuel) else return [(block, value)]

def readPhi (isVirtual : Bool) (defined : List String) :
    Reader (Phi String String × List String) := do
  let name ← readValueName
  expect '='
  let _ ← readName
  let defined ← define defined name
  return (⟨name, isVirtual, ← bounded readIncoming⟩, defined)

/-! ## Blocks -/

def blockEnds (cs : List Char) : Bool :=
  cs.isEmpty || cs.head? = some '\x7d' ||
    match scanName cs with
    | some (_, rest) => (skip rest).head? = some ':'
    | none => false

def isTerminated (stmts : List (Statement String String)) : Bool :=
  stmts.getLast?.any fun stmt => stmt.instr.op.isTerminator

def readBlockItems : Nat → NamedBlock → List String → Reader (NamedBlock × List String)
  | 0, block, defined => .giveUp (return (block, defined))
  | fuel + 1, block, defined => do
    let cs := skip (← get)
    set cs
    if blockEnds cs then return (block, defined)
    else if isTerminated block.stmts then fail (.afterTerminator block.name)
    else
      match phiAhead? cs with
      | some isVirtual =>
        if !block.stmts.isEmpty then fail .latePhi
        else
          let (phi, defined) ← readPhi isVirtual defined
          readBlockItems fuel { block with phis := block.phis ++ [phi] } defined
      | none =>
        let (stmt, defined) ← readStatement defined
        if stmt.instr.op = .label && !block.stmts.isEmpty then fail (.lateLabel block.name)
        else readBlockItems fuel { block with stmts := block.stmts ++ [stmt] } defined

def readBlock (blocks : List NamedBlock) (defined : List String) :
    Reader (NamedBlock × List String) := do
  let name ← readName
  expect ':'
  if blocks.any (·.name = name) then fail (.repeatedBlock name)
  else bounded fun fuel => readBlockItems fuel ⟨name, [], []⟩ defined

def readBlocks (function : String) : Nat → List NamedBlock → List String → Reader (List NamedBlock)
  | 0, blocks, _ => .giveUp (return blocks)
  | fuel + 1, blocks, defined => do
    if ← tryChar '\x7d' then return blocks
    else if (← get).isEmpty then fail (.unterminatedBody function)
    else
      let (block, defined) ← readBlock blocks defined
      readBlocks function fuel (blocks ++ [block]) defined

/-! ## Functions -/

def readArgs : Nat → List String → Reader (List String)
  | 0, args => .giveUp (return args)
  | fuel + 1, args => do
    if ← tryChar ')' then return args
    else
      let name ← readValueName
      let args ← define args name
      if ← tryChar ',' then readArgs fuel args
      else if (← get).head? = some ')' then readArgs fuel args
      else fail .argumentSeparator

def resolve (f : FunctionOf String String) : Except ParseError Function :=
  let values := f.values.map (·.name?)
  let blocks := f.blocks.map (·.name)
  let reads := f.values.flatMap (·.reads)
  let targets := f.values.flatMap (·.targets)
  match reads.find? fun name => some name ∉ values with
  | some name => .error (.undefinedValue name)
  | none =>
    match targets.find? (· ∉ blocks) with
    | some name => .error (.undefinedBlock name)
    | none =>
      .ok
        { name := f.name
          args := f.args
          blocks := f.blocks.map (·.map (fun name => values.idxOf (some name)) blocks.idxOf) }

/-- Reads a function under a name that is not taken, and ends with what its blocks are made into. -/
def readFunctionTo {α : Type} (taken : String → Bool) (finish : FunctionOf String String → Except ParseError α) :
    Reader α := do
  let name ← readName
  if taken name then fail (.repeatedFunction name)
  else
    expect '('
    let args ← bounded fun fuel => readArgs fuel []
    expect '\x7b'
    let blocks ← bounded fun fuel => readBlocks name fuel [] args
    if blocks.isEmpty then fail (.noBlocks name)
    else
      match finish ⟨name, args, blocks⟩ with
      | .ok f => return f
      | .error cause => fail cause

def readFunction (functions : List Function) : Reader Function :=
  readFunctionTo (fun name => functions.any (·.name = name)) resolve

def readFunctions : Nat → List Function → Reader (List Function)
  | 0, functions => .giveUp (return functions)
  | fuel + 1, functions => do
    let cs := skip (← get)
    set cs
    if cs.isEmpty then return functions
    else
      let f ← readFunction functions
      readFunctions fuel (functions ++ [f])

def parse (text : String) : Except Diagnosis Program :=
  match (bounded fun fuel => readFunctions fuel []).run text.toList with
  | .ok (functions, _) => .ok ⟨functions⟩
  | .error fault => .error ⟨fault.cause, fault.position text.toList⟩

def readTables : Nat → Tables → Reader Tables
  | 0, t => .giveUp (return t)
  | fuel + 1, t => do
    let cs := skip (← get)
    set cs
    if cs.isEmpty then return t
    else
      let t ← readFunctionTo (fun name => t.functions.any (·.name = name)) t.build
      readTables fuel t

def parseTables (text : String) : Except Diagnosis Tables :=
  match (bounded fun fuel => readTables fuel {}).run text.toList with
  | .ok (t, _) => .ok t
  | .error fault => .error ⟨fault.cause, fault.position text.toList⟩

end Reflow.Program
