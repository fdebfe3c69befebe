import Reflow.Text.Blank
import Reflow.Text.Lines

/-!
# Layout

Lines are indented by the braces they carry: a line that starts with a closing brace lowers the level before it is
placed, one that ends with an opening brace raises it afterwards.
-/

namespace Reflow.Layout

def levelOf (level : Nat) (line : List Char) : Nat :=
  if line.head? = some '\x7d' then level - 1 else level

def levelAfter (level : Nat) (line : List Char) : Nat :=
  if line.getLast? = some '\x7b' then levelOf level line + 1 else levelOf level line

def placed (width level extra : Nat) (line : List Char) : List Char :=
  if line.isEmpty then ['\n']
  else List.replicate ((levelOf level line + extra) * width) ' ' ++ line ++ ['\n']

structure Piece where
  text : String
  extra : Nat := 0

def Piece.lines (piece : Piece) : List (List Char) :=
  (Text.lines piece.text.toList).map Text.trim

def Piece.levelAfter (level : Nat) (piece : Piece) : Nat :=
  piece.lines.foldl Layout.levelAfter level

def layLines (width extra : Nat) : Nat → List (List Char) → List Char
  | _, [] => []
  | level, line :: rest =>
    placed width level extra line ++ layLines width extra (levelAfter level line) rest

def layPieces (width : Nat) : Nat → List Piece → List (List Char)
  | _, [] => []
  | level, piece :: rest =>
    layLines width piece.extra level piece.lines :: layPieces width (piece.levelAfter level) rest

def layOut (width : Nat) (pieces : List Piece) : String :=
  String.ofList (layPieces width 0 pieces).flatten

end Reflow.Layout
