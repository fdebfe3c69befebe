import Reflow.Program.Error
import Reflow.Text.Blank

/-!
# Reading words

Readers take the text that is left and give a result with the text after it, or a fault.
-/

namespace Reflow.Program

/-- Drops blanks and comments, line feeds only where asked to. -/
def skipFrom (newlines comment : Bool) : List Char → List Char
  | [] => []
  | c :: cs =>
    if c = '\n' then if newlines then skipFrom newlines false cs else c :: cs
    else if comment || c = ';' then skipFrom newlines true cs
    else if Text.isBlank c then skipFrom newlines false cs
    else c :: cs

def skip (cs : List Char) : List Char :=
  skipFrom true false cs

def skipInLine (cs : List Char) : List Char :=
  skipFrom false false cs

def scanName (cs : List Char) : Option (String × List Char) :=
  match skip cs with
  | [] => none
  | c :: rest =>
    if Text.startsName c then
      some (String.ofList ((c :: rest).takeWhile Text.continuesName),
        (c :: rest).dropWhile Text.continuesName)
    else none

def atLineEnd (cs : List Char) : Bool :=
  cs.isEmpty || cs.head? = some '\n'

inductive Reader (α : Type)
  | done (result : α)
  | fault (cause : ParseError)
  | look (next : List Char → Reader α)
  | move (rest : List Char) (next : Reader α)
  /-- A loop that has no round left goes on without it. -/
  | giveUp (next : Reader α)

namespace Reader

variable {α β : Type}

def andThen (next : α → Reader β) : Reader α → Reader β
  | done result => next result
  | fault cause => fault cause
  | look rest => look fun cs => andThen next (rest cs)
  | move cs rest => move cs (andThen next rest)
  | giveUp rest => giveUp (andThen next rest)

instance : Monad Reader where
  pure := done
  bind reader next := andThen next reader

instance : MonadStateOf (List Char) Reader where
  get := look done
  set cs := move cs (done ⟨⟩)
  modifyGet change := look fun cs => move (change cs).2 (done (change cs).1)

def run : Reader α → List Char → Except Fault (α × List Char)
  | done result, cs => .ok (result, cs)
  | fault cause, cs => .error ⟨cause, cs⟩
  | look next, cs => run (next cs) cs
  | move rest next, _ => run next rest
  | giveUp next, cs => run next cs

theorem run_bind (reader : Reader α) (next : α → Reader β) (cs : List Char) :
    (reader >>= next).run cs = match reader.run cs with
      | .ok (result, rest) => (next result).run rest
      | .error failure => .error failure := by
  induction reader generalizing cs with
  | done | fault => rfl
  | look rest ih => exact ih cs cs
  | move rest last ih => exact ih rest
  | giveUp last ih => exact ih cs

end Reader

def fail {α : Type} (cause : ParseError) : Reader α :=
  .fault cause

def tryChar (c : Char) : Reader Bool := do
  match skip (← get) with
  | [] => set ([] : List Char); return false
  | d :: rest =>
    if d = c then set rest; return true
    else set (d :: rest); return false

def expect (c : Char) : Reader Unit := do
  if ← tryChar c then return ()
  else fail (.expected c (← get).head?)

def readName : Reader String := do
  match scanName (← get) with
  | some (name, rest) => set rest; return name
  | none =>
    set (skip (← get))
    fail (.expectedName (← get).head?)

def readValueName : Reader String := do
  expect '%'
  readName

def readBlockName : Reader String := do
  expect '^'
  readName

def digitValue (c : Char) : Nat :=
  if c.isDigit then c.toNat - '0'.toNat
  else if 'a' ≤ c && c ≤ 'f' then c.toNat - 'a'.toNat + 10
  else c.toNat - 'A'.toNat + 10

def ofDigits (base : Nat) (digits : List Char) : Nat :=
  digits.foldl (fun n c => base * n + digitValue c) 0

def isHexDigit (c : Char) : Bool :=
  c.isDigit || ('a' ≤ c && c ≤ 'f') || ('A' ≤ c && c ≤ 'F')

def afterHexMark? : List Char → Option (List Char)
  | '0' :: 'x' :: rest => some rest
  | '0' :: 'X' :: rest => some rest
  | _ => none

def readDigits (base : Nat) (isDigit : Char → Bool) (tooLarge : String → ParseError) :
    Reader Nat := do
  let cs ← get
  let digits := cs.takeWhile isDigit
  if digits.isEmpty then fail .expectedNumber
  else
    set (cs.dropWhile isDigit)
    let n := ofDigits base digits
    if n < 0x8000000000000000 then return n else fail (tooLarge (String.ofList digits))

/-- Reads a number without its sign, in base ten or, after a mark, in base sixteen. -/
def readMagnitude : Reader Nat := do
  match afterHexMark? (← get) with
  | some rest =>
    set rest
    readDigits 16 isHexDigit fun _ => .hexTooLarge
  | none => readDigits 10 Char.isDigit .numberTooLarge

def readNumber : Reader Int := do
  match skip (← get) with
  | '-' :: rest =>
    set rest
    return -(← readMagnitude : Nat)
  | cs =>
    set cs
    return (← readMagnitude : Nat)

end Reflow.Program
