import Reflow.Program.Basic

/-!
# Listings

A program as a plain listing: every function, argument, block, successor, phi and statement on a line of its own, with
its operands below it.
-/

namespace Reflow.Program

namespace FunctionOf

variable (f : Function)

def phiListing (phi : Phi Nat Nat) : List String :=
  ((if phi.isVirtual then "VPHI " else "PHI ") ++ phi.name) ::
    phi.incoming.map fun (b, v) => s!"{f.valueName v} from {f.blockName b}"

def caseListing : CaseLabel → String
  | .value n => s!"Case {n}"
  | .otherwise => "Case default"

def statementListing (stmt : Statement Nat Nat) : List String :=
  let op := stmt.instr.op
  let result := if op.isDef then stmt.result.getD "" ++ " " else ""
  let header := s!"Value {result}({op.name})"
  let symbol := if stmt.instr.symbol.isEmpty then [] else ["Symbol " ++ stmt.instr.symbol]
  header :: symbol ++ (stmt.instr.reads.map fun v => "Op " ++ f.valueName v) ++
    (stmt.instr.targets.map fun b => "Op ^" ++ f.blockName b) ++
    (stmt.instr.immediates.map fun n => s!"Op ${n}") ++ stmt.instr.cases.map caseListing

def blockListing (block : Block Nat Nat) : List String :=
  ("Block " ++ block.name) :: (block.targets.map fun b => "Succ " ++ f.blockName b) ++
    block.phis.flatMap f.phiListing ++ block.stmts.flatMap f.statementListing

def listing : List String :=
  ("Function " ++ f.name) :: (f.args.map fun arg => "Argument " ++ arg) ++
    f.blocks.flatMap f.blockListing

end FunctionOf

def listing (program : Program) : String :=
  String.join (("Printing IR" :: program.functions.flatMap (·.listing)).map (· ++ "\n"))

end Reflow.Program
