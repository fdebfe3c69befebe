import Reflow.Proofs.Emit.Frontier
import Reflow.Proofs.Shift

namespace Reflow

open Emission

inductive Script (α : Type) where
  | done (result : α)
  | fail (error : EmitError)
  | look (next : Traversal → Script α)
  | change (action : Progress → Progress)
      (keeps : ∀ progress, (action progress).traversal.rendered = progress.traversal.rendered) (next : Script α)
  | call (b : BlockId) (braced : Bool) (next : List Line → Script α)

namespace Script

variable {α : Type}

def play (recurse : Recurse) : Script α → Emission α
  | done result => .done result
  | fail error => .fail error
  | look next => .look fun t => (next t).play recurse
  | change action _ next => .change action (next.play recurse)
  | call b braced next => recurse b braced >>= fun lines => (next lines).play recurse

end Script

variable {α β : Type}
  {alike : EmitError → EmitError → Prop} {related : α → α → Prop} {result : Except EmitError α}

inductive Except.Agree (alike : EmitError → EmitError → Prop) (related : α → α → Prop) :
    Except EmitError α → Except EmitError α → Prop
  | ok {a a' : α} (results : related a a') : Agree alike related (.ok a) (.ok a')
  | error {cause cause' : EmitError} (causes : alike cause cause') : Agree alike related (.error cause) (.error cause')

theorem Except.Agree.of_eq
    (causes : ∀ cause, alike cause cause) (results : ∀ a, related a a) : Except.Agree alike related result result := by
  cases result with
  | ok a => exact .ok (results a)
  | error cause => exact .error (causes cause)

theorem Except.Agree.of_shift
    {first : Nat} {change : α → α} (shifts : ∀ cause, alike cause (cause.shift first))
    (results : ∀ a, related a (change a)) : Except.Agree alike related result (shiftResult first change result) := by
  cases result with
  | ok a => exact .ok (results a)
  | error cause => exact .error (shifts cause)

abbrev Kept (related : α → α → Prop) (result result' : α × β) : Prop :=
  related result.1 result'.1 ∧ result.2 = result'.2

/-- Two steps that do the same, whatever renders the blocks that they lead to. Their results or errors are related if
the lines of these blocks are. -/
inductive Paired (alike : EmitError → EmitError → Prop) (called : Bool → List Line → List Line → Prop)
    (related : α → α → Prop) : (Recurse → Emission α) → (Recurse → Emission α) → Prop
  | pure {a a' : α} (results : related a a') : Paired alike called related (fun _ => .done a) fun _ => .done a'
  | throw {cause cause' : EmitError} (causes : alike cause cause') :
      Paired alike called related (fun _ => .fail cause) fun _ => .fail cause'
  | look {next next' : Traversal → Recurse → Emission α} (rest : ∀ t, Paired alike called related (next t) (next' t)) :
      Paired alike called related (fun recurse => .look (next · recurse)) fun recurse => .look (next' · recurse)
  | change {action : Progress → Progress}
      (keeps : ∀ progress, (action progress).traversal.rendered = progress.traversal.rendered)
      {step step' : Recurse → Emission α} (rest : Paired alike called related step step') :
      Paired alike called related (fun recurse => .change action (step recurse))
        fun recurse => .change action (step' recurse)
  | call {b : BlockId} {braced : Bool} {next next' : List Line → Recurse → Emission α}
      (rest : ∀ lines lines', called braced lines lines' → Paired alike called related (next lines) (next' lines')) :
      Paired alike called related (fun recurse => recurse b braced >>= (next · recurse))
        fun recurse => recurse b braced >>= (next' · recurse)

namespace Paired

variable {alike : EmitError → EmitError → Prop} {called : Bool → List Line → List Line → Prop}
  {related : α → α → Prop} {related' : β → β → Prop} {step step' other other' : Recurse → Emission α}

theorem exists_script (paired : Paired alike called related step step')
    (refl : ∀ braced lines, called braced lines lines) :
    ∃ script : Script α, ∀ recurse, step recurse = script.play recurse := by
  induction paired with
  | @pure a => exact ⟨.done a, fun _ => rfl⟩
  | @throw cause => exact ⟨.fail cause, fun _ => rfl⟩
  | look _ ih =>
    choose scripts plays using ih
    exact ⟨.look scripts, fun recurse => congrArg Emission.look (funext fun t => plays t recurse)⟩
  | change keeps _ ih =>
    obtain ⟨script, plays⟩ := ih
    exact ⟨.change _ keeps script, fun recurse => congrArg (Emission.change _) (plays recurse)⟩
  | @call b braced _ _ _ ih =>
    choose scripts plays using fun lines => ih lines lines (refl braced lines)
    refine ⟨.call b braced scripts, fun recurse => ?_⟩
    simp only [plays, Script.play]

section

variable (first : Paired alike called related step step')
include first

theorem bind {next next' : α → Recurse → Emission β}
    (rest : ∀ a a', related a a' → Paired alike called related' (next a) (next' a')) :
    Paired alike called related' (fun recurse => step recurse >>= (next · recurse))
      fun recurse => step' recurse >>= (next' · recurse) := by
  induction first with
  | pure results => exact rest _ _ results
  | throw causes => exact .throw causes
  | look _ ih => exact .look ih
  | change keeps _ ih => exact .change keeps ih
  | call _ ih =>
    simp only [bind_assoc]
    exact .call ih

theorem map {g g' : α → β} (results : ∀ a a', related a a' → related' (g a) (g' a')) :
    Paired alike called related' (fun recurse => g <$> step recurse) fun recurse => g' <$> step' recurse :=
  first.bind fun a a' here => .pure (results a a' here)

theorem pair (b : β) : Paired alike called (Kept related) (fun recurse => do return (← step recurse, b))
      fun recurse => do return (← step' recurse, b) :=
  first.bind fun _ _ here => .pure ⟨here, rfl⟩

theorem mono {weaker : α → α → Prop} (weakens : ∀ a a', related a a' → weaker a a') :
    Paired alike called weaker step step' := by
  have mapped : Paired alike called weaker (id <$> step ·) (id <$> step' ·) := first.map weakens
  simpa only [id_map] using mapped

end

variable {action : Traversal → Traversal}

theorem recurse (b : BlockId) (braced : Bool) : Paired alike called (called braced) (· b braced) (· b braced) := by
  have calls : Paired alike called (called braced) _ _ := .call (b := b) fun _ _ => .pure
  simpa only [show (Emission.done : List Line → _) = Pure.pure from rfl, bind_pure] using calls

theorem traversal_bind {next next' : Traversal → Recurse → Emission α}
    (rest : ∀ t, Paired alike called related (next t) (next' t)) :
    Paired alike called related (fun recurse => Emission.traversal >>= (next · recurse))
      fun recurse => Emission.traversal >>= (next' · recurse) :=
  .look rest

theorem update_bind (rest : Paired alike called related step step')
    (keeps : ∀ t, (action t).rendered = t.rendered := by intro; rfl) :
    Paired alike called related (fun recurse => Emission.update action >>= fun _ => step recurse)
      fun recurse => Emission.update action >>= fun _ => step' recurse :=
  .change (fun progress => keeps progress.traversal) rest

theorem noteJump_bind (x : BlockId) (rest : Paired alike called related step step') :
    Paired alike called related (fun recurse => Emission.noteJump x >>= fun _ => step recurse)
      fun recurse => Emission.noteJump x >>= fun _ => step' recurse := by
  refine .change (fun _ => ?_) rest
  rfl

theorem noteLabel_bind (b : BlockId) (rest : Paired alike called related step step') :
    Paired alike called related (fun recurse => Emission.noteLabel b >>= fun _ => step recurse)
      fun recurse => Emission.noteLabel b >>= fun _ => step' recurse := by
  refine .change (fun _ => ?_) rest
  rfl

theorem ite {cond : Prop} [Decidable cond] (first : Paired alike called related step step')
    (second : Paired alike called related other other') :
    Paired alike called related (fun recurse => if cond then step recurse else other recurse)
      fun recurse => if cond then step' recurse else other' recurse := by
  by_cases holds : cond
  · simpa only [if_pos holds] using first
  · simpa only [if_neg holds] using second

theorem ite_update_bind {cond : Prop} [Decidable cond]
    (rest : Paired alike called related step step') (keeps : ∀ t, (action t).rendered = t.rendered := by intro; rfl) :
    Paired alike called related (fun recurse => do
        if cond then Emission.update action
        step recurse)
      (fun recurse => do
        if cond then Emission.update action
        step' recurse) :=
  .ite (.update_bind rest keeps) rest

theorem of_except {result result' : Except EmitError α} (agree : Except.Agree alike related result result') :
    Paired alike called related (fun _ => ofExcept result) fun _ => ofExcept result' := by
  cases agree with
  | ok results => exact .pure results
  | error causes => exact .throw causes

end Paired

end Reflow
