import Reflow.Copies.Walk
import Reflow.Emit.Line
import Reflow.Labels

/-!
# Emissions

An emission prints lines while it changes the state of the traversal and counts the jumps and labels it prints.
-/

namespace Reflow

structure Names where
  var : Var → String
  label : BlockId → Except EmitError String

abbrev Renderer := StmtId → Names → Except EmitError String

structure Emitter where
  procedure : Procedure
  facts : Facts
  render : Renderer
  labels : Labels
  copies : Copies
  verbose : Bool

structure Progress where
  traversal : Traversal := {}
  jumps : Nat := 0
  labels : Nat := 0

inductive Emission (α : Type) where
  | done (result : α)
  | fail (error : EmitError)
  | look (next : Traversal → Emission α)
  | change (action : Progress → Progress) (next : Emission α)

namespace Emission

variable {α β γ : Type}

def andThen (next : α → Emission β) : Emission α → Emission β
  | done result => next result
  | fail error => fail error
  | look rest => look fun t => andThen next (rest t)
  | change action rest => change action (andThen next rest)

def recover (handle : EmitError → Emission α) : Emission α → Emission α
  | done result => done result
  | fail error => handle error
  | look rest => look fun t => recover handle (rest t)
  | change action rest => change action (recover handle rest)

instance : Monad Emission where
  pure := done
  bind step next := andThen next step

instance : MonadExceptOf EmitError Emission where
  throw := fail
  tryCatch step handle := recover handle step

theorem andThen_done (step : Emission α) : andThen done step = step := by
  induction step with
  | done | fail => rfl
  | look rest ih => exact congrArg look (funext ih)
  | change action rest ih => exact congrArg (change action) ih

theorem andThen_andThen (step : Emission α) (next : α → Emission β) (last : β → Emission γ) :
    andThen last (andThen next step) = andThen (fun result => andThen last (next result)) step := by
  induction step with
  | done | fail => rfl
  | look rest ih => exact congrArg look (funext ih)
  | change action rest ih => exact congrArg (change action) ih

instance : LawfulMonad Emission :=
  .mk' Emission andThen_done (fun _ _ => rfl) andThen_andThen

def run : Emission α → Progress → EStateM.Result EmitError Progress α
  | done result, progress => .ok result progress
  | fail error, progress => .error error progress
  | look next, progress => run (next progress.traversal) progress
  | change action next, progress => run next (action progress)

instance : CoeFun (Emission α) fun _ => Progress → EStateM.Result EmitError Progress α :=
  ⟨run⟩

theorem run_bind (step : Emission α) (next : α → Emission β) (progress : Progress) :
    (step >>= next) progress = match step progress with
      | .ok result after => next result after
      | .error error after => .error error after := by
  induction step generalizing progress with
  | done | fail => rfl
  | look rest ih => exact ih progress.traversal progress
  | change action rest ih => exact ih (action progress)

def traversal : Emission Traversal :=
  look done

def update (action : Traversal → Traversal) : Emission Unit :=
  change (fun progress => { progress with traversal := action progress.traversal }) (done ())

def noteJump (target : BlockId) : Emission Unit :=
  change (fun progress =>
    { progress with traversal := progress.traversal.jumpTo target, jumps := progress.jumps + 1 }) (done ())

def noteLabel (b : BlockId) : Emission Unit :=
  change (fun progress =>
    { progress with traversal := progress.traversal.print b, labels := progress.labels + 1 }) (done ())

def concat : List (Emission (List Line)) → Emission (List Line)
  | [] => pure []
  | step :: rest => do
    let lines ← step
    return lines ++ (← concat rest)

end Emission

namespace Emitter

open Emission

variable (e : Emitter)

def varName (b : BlockId) (v : Var) : String :=
  (Rename.top? (e.copies.namesIn b) v).getD (e.procedure.varName v)

def names (b : BlockId) : Names :=
  ⟨e.varName b, e.labels.label⟩

def renderStmt (b : BlockId) (stmt : Stmt) : Emission String :=
  ofExcept (e.render stmt.id (e.names b))

def saveLines (b : BlockId) : List Line :=
  (e.copies.saved b).map (.copy b)

def tailLines (b : BlockId) : List Line :=
  (e.copies.tail b).map (.copy b)

def jump (target : BlockId) (nested : Bool) : Emission (List Line) := do
  let label ← ofExcept (e.labels.label target)
  noteJump target
  return [.jump target label nested]

end Emitter

def upToLastReal (stmts : List (Stmt × Kind)) : List (Stmt × Kind) :=
  (stmts.reverse.dropWhile fun stmt => !stmt.2.isReal).reverse

end Reflow
