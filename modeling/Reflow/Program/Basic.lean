import Reflow.Procedure.Kind
import Reflow.Program.Op

/-!
# Programs

A program is a list of functions; a function has arguments and blocks, a block has phis and statements.
-/

namespace Reflow

inductive Instr (V B : Type)
  | any (operands : List V)
  | const (n : Int)
  | binary (op : BinOp) (left right : V)
  | copy (source : V)
  | call (callee : String) (operands : List V)
  | init (var : V) (n : Int)
  | vuse (source : V)
  | label (name : String)
  | asm
  | ret (result : Option V)
  | br (target : B)
  | condbr (cond : V) (thenBlock elseBlock : B)
  | loop (cond : V) (body exit : B)
  | multiif (cond : V) (target : B) (arms : List (V × B)) (otherwise : Option B)
  | switch (selector : V) (arms : List (CaseLabel × B))
  | goto (target : B)
  deriving Repr, DecidableEq

namespace Instr

variable {V B V' B' : Type}

def op : Instr V B → Op
  | any _ => .any
  | const _ => .const
  | binary op .. => .binary op
  | copy _ => .copy
  | call .. => .call
  | init .. => .init
  | vuse _ => .vuse
  | label _ => .label
  | asm => .asm
  | ret _ => .ret
  | br _ => .br
  | condbr .. => .condbr
  | loop .. => .loop
  | multiif .. => .multiif
  | switch .. => .switch
  | goto _ => .goto

def reads : Instr V B → List V
  | any operands => operands
  | binary _ left right => [left, right]
  | copy source => [source]
  | call _ operands => operands
  | init var _ => [var]
  | vuse source => [source]
  | ret result => result.toList
  | condbr cond .. => [cond]
  | loop cond .. => [cond]
  | multiif cond _ arms _ => cond :: arms.map (·.1)
  | switch selector _ => [selector]
  | const _ | label _ | asm | br _ | goto _ => []

def targets : Instr V B → List B
  | br target => [target]
  | condbr _ thenBlock elseBlock => [thenBlock, elseBlock]
  | loop _ body exit => [body, exit]
  | multiif _ target arms otherwise => target :: arms.map (·.2) ++ otherwise.toList
  | switch _ arms => arms.map (·.2)
  | goto target => [target]
  | any _ | const _ | binary .. | copy _ | call .. | init .. | vuse _ | label _ | asm | ret _ => []

def symbol : Instr V B → String
  | call callee _ => callee
  | label name => name
  | _ => ""

def immediates : Instr V B → List Int
  | const n => [n]
  | init _ n => [n]
  | _ => []

def cases : Instr V B → List CaseLabel
  | switch _ arms => arms.map (·.1)
  | _ => []

def map (f : V → V') (g : B → B') : Instr V B → Instr V' B'
  | any operands => any (operands.map f)
  | const n => const n
  | binary op left right => binary op (f left) (f right)
  | copy source => copy (f source)
  | call callee operands => call callee (operands.map f)
  | init var n => init (f var) n
  | vuse source => vuse (f source)
  | label name => label name
  | asm => asm
  | ret result => ret (result.map f)
  | br target => br (g target)
  | condbr cond thenBlock elseBlock => condbr (f cond) (g thenBlock) (g elseBlock)
  | loop cond body exit => loop (f cond) (g body) (g exit)
  | multiif cond target arms otherwise =>
    multiif (f cond) (g target) (arms.map fun (v, b) => (f v, g b)) (otherwise.map g)
  | switch selector arms => switch (f selector) (arms.map fun (case, b) => (case, g b))
  | goto target => goto (g target)

end Instr

namespace Program

structure Phi (V B : Type) where
  name : String
  isVirtual : Bool
  incoming : List (B × V)
  deriving Repr, DecidableEq

structure Statement (V B : Type) where
  result : Option String
  instr : Instr V B
  deriving Repr, DecidableEq

structure Block (V B : Type) where
  name : String
  phis : List (Phi V B)
  stmts : List (Statement V B)
  deriving Repr, DecidableEq

structure FunctionOf (V B : Type) where
  name : String
  args : List String
  blocks : List (Block V B)
  deriving Repr, DecidableEq

abbrev Function := FunctionOf Nat Nat

inductive Value (V B : Type)
  | argument (name : String)
  | phi (phi : Phi V B)
  | statement (stmt : Statement V B)
  deriving Repr, DecidableEq

namespace Phi

variable {V B V' B' : Type} (phi : Phi V B)

def op : Op :=
  if phi.isVirtual then .vphi else .phi

def map (f : V → V') (g : B → B') : Phi V' B' :=
  { phi with incoming := phi.incoming.map fun (b, v) => (g b, f v) }

end Phi

namespace Value

variable {V B : Type}

def name? : Value V B → Option String
  | argument name => some name
  | phi p => some p.name
  | statement stmt => stmt.result

def op : Value V B → Op
  | argument _ => .argument
  | phi p => p.op
  | statement stmt => stmt.instr.op

def reads : Value V B → List V
  | argument _ => []
  | phi p => p.incoming.map (·.2)
  | statement stmt => stmt.instr.reads

/-- The blocks named; a phi names those it takes values from. -/
def targets : Value V B → List B
  | argument _ => []
  | phi p => p.incoming.map (·.1)
  | statement stmt => stmt.instr.targets

end Value

namespace Block

variable {V B V' B' : Type} (block : Block V B)

def values : List (Value V B) :=
  block.phis.map .phi ++ block.stmts.map .statement

def targets : List B :=
  block.stmts.flatMap fun stmt => stmt.instr.targets

def map (f : V → V') (g : B → B') : Block V' B' where
  name := block.name
  phis := block.phis.map (·.map f g)
  stmts := block.stmts.map fun stmt => { result := stmt.result, instr := stmt.instr.map f g }

end Block

namespace FunctionOf

variable {V B : Type} (f : FunctionOf V B)

def values : List (Value V B) :=
  f.args.map .argument ++ f.blocks.flatMap (·.values)

def valueName (v : Nat) : String :=
  (f.values[v]?.bind (·.name?)).getD ""

def blockName (b : Nat) : String :=
  (f.blocks[b]?.map (·.name)).getD ""

end FunctionOf

end Program

structure Program where
  functions : List Program.Function
  deriving Repr, DecidableEq

namespace Program

/-- The number of the first value of a function. -/
def base (program : Program) (index : Nat) : Nat :=
  ((program.functions.take index).flatMap (·.values)).length

end Program

end Reflow
