import Reflow.Program.Op
import Reflow.Text.Quoted

/-!
# Faults of a program text

Why a text is not a program, and where: a `Fault` keeps the text that was left when it was found, from which its
position follows.
-/

namespace Reflow.Program

inductive ParseError
  | expected (c : Char) (found : Option Char)
  | expectedName (found : Option Char)
  | expectedNumber
  | hexTooLarge
  | numberTooLarge (digits : String)
  | repeatedFunction (name : String)
  | argumentSeparator
  | repeatedValue (name : String)
  | unterminatedBody (function : String)
  | noBlocks (function : String)
  | repeatedBlock (name : String)
  | afterTerminator (block : String)
  | latePhi
  | lateLabel (block : String)
  | unknownOperation (name : String)
  | givesNoValue (op : Op)
  | needsResult (op : Op)
  | expectedCallee
  | conditionBeforeLast
  | firstCondition
  | expectedCase (found : String)
  | noCases
  | undefinedValue (name : String)
  | undefinedBlock (name : String)
  deriving Repr, DecidableEq

def ParseError.message : ParseError → String
  | expected c found => s!"Expected '{c}' but found {Text.shownChar found}"
  | expectedName (some c) => s!"Expected identifier but found '{c}'"
  | expectedName none => "Expected identifier but found EOF"
  | expectedNumber => "Expected number"
  | hexTooLarge => "Failed to parse hex number: number too large to fit in target type"
  | numberTooLarge digits =>
    s!"Failed to parse number '{digits}': number too large to fit in target type"
  | repeatedFunction name => s!"Duplicate function definition: '{name}'"
  | argumentSeparator => "Expected ',' or ')' in argument list"
  | repeatedValue name => s!"Value '%{name}' defined twice"
  | unterminatedBody function => s!"Unterminated body of function '{function}'"
  | noBlocks function => s!"Function '{function}' has no blocks"
  | repeatedBlock name => s!"Block '{name}' defined twice"
  | afterTerminator block => s!"Statement after the terminator of block '{block}'"
  | latePhi => "PHI nodes must be at the beginning of a block"
  | lateLabel block => s!"Label of block '{block}' must be its first statement"
  | unknownOperation name => s!"Unknown operation: {name}"
  | givesNoValue op => s!"Operation '{op.name}' does not produce a value"
  | needsResult op => s!"Operation '{op.name}' requires a result value"
  | expectedCallee => "Expected '@' before function name in call"
  | conditionBeforeLast => "Only the last arm of a multiif may omit its condition"
  | firstCondition => "The first arm of a multiif needs a condition"
  | expectedCase found => s!"Expected case value but found '{found}'"
  | noCases => "A switch needs at least one arm"
  | undefinedValue name => s!"Undefined value reference: {name}"
  | undefinedBlock name => s!"Undefined block reference: {name}"

structure Fault where
  cause : ParseError
  rest : List Char
  deriving Repr, DecidableEq

def byteSize : List Char → Nat
  | [] => 0
  | c :: cs => c.utf8Size + byteSize cs

def Fault.position (fault : Fault) (text : List Char) : Nat :=
  byteSize text - byteSize fault.rest

structure Diagnosis where
  cause : ParseError
  position : Nat
  deriving Repr, DecidableEq

def Diagnosis.message (d : Diagnosis) : String :=
  s!"{d.cause.message} at position {d.position}"

end Reflow.Program
