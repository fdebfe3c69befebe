import Reflow.Ascending
import Reflow.Error

/-!
# Renaming scopes

While copies are placed, a variable may be read through a temporary.
-/

namespace Reflow.Rename

abbrev Stack := List (Var × List String)

def names (stack : Stack) (v : Var) : List String :=
  (stack.lookup v).getD []

def top? (stack : Stack) (v : Var) : Option String :=
  (names stack v).head?

def tops (stack : Stack) : List (Var × String) :=
  (Ascending.nats (stack.map (·.1))).filterMap fun v => (top? stack v).map fun name => (v, name)

def push (v : Var) (name : String) : Stack → Stack
  | [] => [(v, [name])]
  | (w, names) :: rest => if v = w then (w, name :: names) :: rest else (w, names) :: push v name rest

def pop (v : Var) : Stack → Stack
  | [] => []
  | (w, names) :: rest =>
    if v = w then
      match names.tail with
      | [] => rest
      | left => (w, left) :: rest
    else (w, names) :: pop v rest

structure Scope where
  stack : Stack
  pushed : List Var

namespace Scope

def enter (stack : Stack) : Scope :=
  ⟨stack, []⟩

def push (scope : Scope) (v : Var) (name : String) : Scope :=
  ⟨Rename.push v name scope.stack, v :: scope.pushed⟩

def hasPushed (scope : Scope) (v : Var) : Bool :=
  v ∈ scope.pushed

def close (scope : Scope) : Stack :=
  scope.pushed.foldl (fun stack v => pop v stack) scope.stack

end Scope

inductive Step
  | push (v : Var) (name : String)
  | top (v : Var)
  | has (v : Var)
  | enter (steps : List Step)

inductive Seen
  | name (name : Option String)
  | pushed (pushed : Bool)
  | tops (tops : List (Var × String))

mutual

def Scope.step (scope : Scope) : Step → Scope × List Seen
  | .push v name =>
    let next := scope.push v name
    (next, [.tops (tops next.stack)])
  | .top v => (scope, [.name (top? scope.stack v), .tops (tops scope.stack)])
  | .has v => (scope, [.pushed (scope.hasPushed v), .tops (tops scope.stack)])
  | .enter steps =>
    let (inner, seen) := (enter scope.stack).run steps
    let next := { scope with stack := inner.close }
    (next, seen ++ [.tops (tops next.stack)])

def Scope.run (scope : Scope) : List Step → Scope × List Seen
  | [] => (scope, [])
  | step :: rest =>
    let (next, seen) := scope.step step
    let (last, more) := next.run rest
    (last, seen ++ more)

end

def observe (steps : List Step) : List Seen :=
  let (scope, seen) := (Scope.enter []).run steps
  seen ++ [.tops (tops scope.close)]

end Reflow.Rename
