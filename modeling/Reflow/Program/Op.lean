/-!
# Operations

The operations of the program text, with what each takes and gives.
-/

namespace Reflow

inductive BinOp
  | add | sub | mul | lt | gt | eq
  deriving Repr, DecidableEq

inductive Op
  | argument
  | phi
  | vphi
  | any
  | const
  | binary (op : BinOp)
  | copy
  | call
  | init
  | vuse
  | label
  | asm
  | ret
  | br
  | condbr
  | loop
  | multiif
  | switch
  | goto
  deriving Repr, DecidableEq

/-- What an operation takes and gives; a missing count means any number. -/
structure OpInfo where
  name : String
  isTerminator : Bool := false
  isDef : Bool := false
  operands : Option Nat := some 0
  successors : Option Nat := some 0
  immediates : Option Nat := some 0
  deriving Repr, DecidableEq

namespace BinOp

def name : BinOp → String
  | add => "add"
  | sub => "sub"
  | mul => "mul"
  | lt => "lt"
  | gt => "gt"
  | eq => "eq"

def symbol : BinOp → String
  | add => "+"
  | sub => "-"
  | mul => "*"
  | lt => "<"
  | gt => ">"
  | eq => "=="

end BinOp

namespace Op

def info : Op → OpInfo
  | argument => { name := "<none>" }
  | phi => { name := "phi", isDef := true, operands := none }
  | vphi => { name := "vphi", isDef := true, operands := none }
  | any => { name := "any", isDef := true, operands := none }
  | const => { name := "const", isDef := true, immediates := some 1 }
  | binary op => { name := op.name, isDef := true, operands := some 2 }
  | copy => { name := "copy", isDef := true, operands := some 1 }
  | call => { name := "call", isDef := true, operands := none }
  | init => { name := "init", operands := some 1, immediates := some 1 }
  | vuse => { name := "vuse", operands := some 1 }
  | label => { name := "label" }
  | asm => { name := "asm" }
  | ret => { name := "ret", isTerminator := true, operands := none }
  | br => { name := "br", isTerminator := true, successors := some 1 }
  | condbr => { name := "condbr", isTerminator := true, operands := some 1, successors := some 2 }
  | loop => { name := "loop", isTerminator := true, operands := some 1, successors := some 2 }
  | multiif => { name := "multiif", isTerminator := true, operands := none, successors := none }
  | switch =>
    { name := "switch", isTerminator := true, operands := some 1, successors := none,
      immediates := none }
  | goto => { name := "goto", isTerminator := true, successors := some 1 }

def name (op : Op) : String :=
  op.info.name

def isTerminator (op : Op) : Bool :=
  op.info.isTerminator

def isDef (op : Op) : Bool :=
  op.info.isDef

def symbol? : Op → Option String
  | binary op => some op.symbol
  | _ => none

def all : List Op :=
  [argument, phi, vphi, any, const, binary .add, binary .sub, binary .mul, binary .lt, binary .gt,
    binary .eq, copy, call, init, vuse, label, asm, ret, br, condbr, loop, multiif, switch, goto]

def written : List Op :=
  all.drop 3

def ofName? (name : String) : Option Op :=
  written.find? fun op => op.name = name

end Op

end Reflow
