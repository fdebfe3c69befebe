import Reflow.Copies.Basic

/-!
# Lines of a body

The pieces an emission prints, each with what it was printed for.
-/

namespace Reflow

inductive Line
  | comment (text : String)
  | label (block : BlockId) (text : String)
  | copy (block : BlockId) (copy : Copy)
  | stmt (block : BlockId) (stmt : StmtId) (text : String)
  | jump (target : BlockId) (label : String) (nested : Bool)
  | openBrace
  | closeBrace
  | emptyBraces
  | emptyStmt
  | elseBranch (block : BlockId)
  | elseIf (block : BlockId) (cond : String)
  | caseLabel (label : CaseLabel)
  | leaveSwitch
  deriving Repr, DecidableEq

namespace Line

def text : Line → String
  | .comment s => "//" ++ s
  | .label _ s => s ++ ":;"
  | .copy _ c => c.text
  | .stmt _ _ s => s
  | .jump _ s _ => "goto " ++ s ++ ";"
  | .openBrace => "\x7b"
  | .closeBrace => "\x7d"
  | .emptyBraces => "\x7b\x7d"
  | .emptyStmt => ";"
  | .elseBranch _ => "else"
  | .elseIf _ cond => "else if (" ++ cond ++ ")"
  | .caseLabel (.value n) => s!"case {n}:"
  | .caseLabel .otherwise => "default:"
  | .leaveSwitch => "break;"

def isNested : Line → Bool
  | .jump _ _ nested => nested
  | _ => false

def allSilent (lines : List Line) : Bool :=
  lines.all fun line => line.text.isEmpty

end Line

end Reflow
