import Reflow.Proofs.Code.Basic
import Reflow.Text.Blank
import Reflow.Text.Letter
import Reflow.Text.Lines

namespace Reflow

inductive Token
  | plain (text : String)
  | ret (text : String)
  | label (name : String)
  | goto (name : String)
  | ifTest (cond : String)
  | whileTest (cond : String)
  | otherwise
  | opening
  | closing
  | empty
  | unknown
  deriving Repr, DecidableEq

namespace Token

def enclosed? (opening : List Char) (closing : Char) (cs : List Char) : Option String :=
  (Text.after? opening cs).bind fun inside =>
    if inside.getLast? = some closing then some (String.ofList inside.dropLast) else none

def ofHeader (token : String → Token) (cs : List Char) : Token :=
  ((enclosed? [' ', '('] ')' cs).map token).getD unknown

def opensStatement : List Char → Bool
  | ' ' :: '=' :: _ => true
  | '(' :: _ => true
  | _ => false

def ofWord (line : String) (word : String) (rest : List Char) : List Token :=
  if rest = [':', ';'] then [label word]
  else if opensStatement rest then [plain line]
  else if word = "if" then [ofHeader ifTest rest]
  else if word = "while" then [ofHeader whileTest rest]
  else if word = "else" then
    if rest.isEmpty then [otherwise]
    else [otherwise, ((Text.after? [' ', 'i', 'f'] rest).map (ofHeader ifTest)).getD unknown]
  else if word = "goto" then [((enclosed? [' '] ';' rest).map goto).getD unknown]
  else if word = "return" then [ret line]
  else [unknown]

def ofMarks : List Char → List Token
  | '/' :: '/' :: _ => []
  | ['\x7b'] => [opening]
  | ['\x7d'] => [closing]
  | ['\x7b', '\x7d'] => [opening, closing]
  | [';'] => [empty]
  | _ => [unknown]

def ofLine : List Char → List Token
  | [] => []
  | c :: rest =>
    if Text.continuesName c then
      ofWord (String.ofList (c :: rest)) (String.ofList (c :: rest.takeWhile Text.continuesName))
        (rest.dropWhile Text.continuesName)
    else ofMarks (c :: rest)

def ofText (text : String) : List Token :=
  ((Text.lines text.toList).map Text.trim).flatMap ofLine

end Token

inductive Item
  | code (code : Code)
  | elseCode (code : Code)
  deriving Repr, DecidableEq

structure Reading where
  items : List Item := []
  outer : List (List Item) := []
  deriving Repr, DecidableEq

namespace Reading

def block? : List Item → Option Code
  | [] => some .skip
  | .code code :: items => (block? items).map code.seq
  | .elseCode _ :: _ => none

def push (r : Reading) (code : Code) : Reading :=
  { r with items := .code code :: r.items }

def add (r : Reading) : Token → Option Reading
  | .plain text => some (r.push (.plain text))
  | .ret text => some (r.push (.ret text))
  | .label name => some (r.push (.label name))
  | .goto name => some (r.push (.goto name))
  | .empty => some (r.push .skip)
  | .ifTest cond =>
    match r.items with
    | .code first :: .elseCode second :: items => some { r with items := .code (.ite cond first second) :: items }
    | .code first :: items => some { r with items := .code (.ite cond first .skip) :: items }
    | _ => none
  | .whileTest cond =>
    match r.items with
    | .code body :: items => some { r with items := .code (.loop cond body) :: items }
    | _ => none
  | .otherwise =>
    match r.items with
    | .code code :: items => some { r with items := .elseCode code :: items }
    | _ => none
  | .closing => some { items := [], outer := r.items :: r.outer }
  | .opening =>
    match r.outer with
    | items :: outer => (block? r.items).map fun code => { items := .code code :: items, outer }
    | [] => none
  | .unknown => none

def addAll (tokens : List Token) (r : Reading) : Option Reading :=
  tokens.foldr (fun token found => found.bind (·.add token)) (some r)

end Reading

def Code.ofTokens? (tokens : List Token) : Option Code :=
  (Reading.addAll tokens {}).bind fun r => if r.outer.isEmpty then Reading.block? r.items else none

def Code.read? (text : String) : Option Code :=
  Code.ofTokens? (Token.ofText text)

/-! ## What tokens give

A piece of code is read alike wherever it stands, unless it ends with a conditional that an else branch
after it would belong to.
-/

namespace Reading

def Settled (r : Reading) : Prop :=
  ∀ code, r.items.head? ≠ some (.elseCode code)

def Gives (tokens : List Token) (codes : List Code) : Prop :=
  ∀ r : Reading, r.Settled → addAll tokens r = some { r with items := codes.map .code ++ r.items }

def GivesOne (tokens : List Token) (code : Code) : Prop :=
  ∀ r : Reading, addAll tokens r = some (r.push code)

def GivesElse (tokens : List Token) (code : Code) : Prop :=
  ∀ (r : Reading) (cond : String) (first : Code), r.Settled →
    ((addAll tokens r).bind fun r => (r.push first).add (.ifTest cond)) = some (r.push (.ite cond first code))

variable {tokens more : List Token} {codes codes' : List Code} {code first : Code} {r : Reading}

theorem addAll_cons (token : Token) (tokens : List Token) (r : Reading) :
    addAll (token :: tokens) r = (addAll tokens r).bind (·.add token) :=
  rfl

theorem addAll_append (tokens more : List Token) (r : Reading) :
    addAll (tokens ++ more) r = (addAll more r).bind (addAll tokens) := by
  induction tokens with
  | nil =>
    rw [List.nil_append]
    cases addAll more r <;> rfl
  | cons _ _ ih =>
    rw [List.cons_append, addAll_cons, ih]
    cases addAll more r <;> rfl

theorem Gives.nil : Gives [] [] := by
  intro r _
  rfl

theorem Gives.eq_nil (gives : Gives [] codes) : codes = [] := by
  have read := gives {} (by intro code found; simp at found)
  simpa [addAll] using read

theorem GivesOne.ne_nil (one : GivesOne tokens code) : tokens ≠ [] := by
  rintro rfl
  simpa [addAll, push] using one {}

theorem Gives.append (front : Gives tokens codes) (back : Gives more codes') :
    Gives (tokens ++ more) (codes ++ codes') := by
  intro r settled
  have next : Settled { r with items := codes'.map .code ++ r.items } := by
    cases codes' with
    | nil => exact settled
    | cons => intro other found; simp at found
  rw [addAll_append, back r settled, Option.bind_some, front _ next]
  simp

theorem GivesOne.gives (one : GivesOne tokens code) : Gives tokens [code] := by
  intro r _
  exact one r

theorem GivesOne.of_add {token : Token} (added : ∀ r : Reading, r.add token = some (r.push code)) :
    GivesOne [token] code := by
  intro r
  exact added r

theorem block?_map_code (codes : List Code) : block? (codes.map .code) = some (Code.sequence codes) := by
  induction codes with
  | nil => rfl
  | cons _ _ ih => simp [block?, ih]

theorem Gives.braces (inside : Gives tokens codes) :
    GivesOne (.opening :: tokens ++ [.closing]) (Code.sequence codes) := by
  intro r
  have settled : Settled { items := [], outer := r.items :: r.outer } := by
    intro other found
    simp at found
  have closed : addAll [.closing] r = some { items := [], outer := r.items :: r.outer } := rfl
  rw [List.cons_append, addAll_cons, addAll_append, closed, Option.bind_some, inside _ settled]
  simp [add, block?_map_code, push]

theorem GivesElse.none : GivesElse [] .skip := by
  intro r cond first settled
  cases items : r.items with
  | nil => simp [addAll, push, add, items]
  | cons item =>
    cases item with
    | code => simp [addAll, push, add, items]
    | elseCode code => exact absurd (by simp [items]) (settled code)

theorem GivesElse.one (one : GivesOne tokens code) : GivesElse (.otherwise :: tokens) code := by
  intro r cond first _
  simp [addAll_cons, one r, push, add]

theorem GivesElse.test {cond' : String} (one : GivesOne tokens first) (rest : GivesElse more code) :
    GivesElse (.otherwise :: .ifTest cond' :: tokens ++ more) (.ite cond' first code) := by
  intro r cond first' settled
  have read := rest r cond' first settled
  cases found : addAll more r with
  | none => simp [found] at read
  | some r' =>
    rw [found, Option.bind_some] at read
    rw [List.cons_append, List.cons_append, addAll_cons, addAll_cons, addAll_append, found,
      Option.bind_some, one r', Option.bind_some, read]
    simp [push, add]

theorem Gives.test {cond : String} (one : GivesOne tokens first) (rest : GivesElse more code) :
    Gives (.ifTest cond :: tokens ++ more) [.ite cond first code] := by
  intro r settled
  have read := rest r cond first settled
  cases found : addAll more r with
  | none => simp [found] at read
  | some r' =>
    rw [found, Option.bind_some] at read
    rw [List.cons_append, addAll_cons, addAll_append, found, Option.bind_some, one r', Option.bind_some, read]
    rfl

theorem Gives.loop {cond : String} (one : GivesOne tokens code) :
    Gives (.whileTest cond :: tokens) [.loop cond code] := by
  intro r _
  simp [addAll_cons, one r, push, add]

theorem Gives.ofTokens? (whole : Gives tokens codes) : Code.ofTokens? tokens = some (Code.sequence codes) := by
  have settled : Settled {} := by
    intro other found
    simp at found
  rw [Code.ofTokens?, whole {} settled]
  simp [block?_map_code]

end Reading

end Reflow
