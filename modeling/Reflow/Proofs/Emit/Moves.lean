import Reflow.Proofs.Emit.Logic

namespace Reflow.Emission

open Relation

variable {α β : Type} {move : Traversal → Traversal → Prop} {allowed : EmitError → Prop} {here there after : Progress}

def points : Emission α → Progress → List Progress
  | done _, progress | fail _, progress => [progress]
  | look next, progress => points (next progress.traversal) progress
  | change action next, progress => progress :: points next (action progress)

theorem points_eq_cons (step : Emission α) (here : Progress) : ∃ later, step.points here = here :: later := by
  induction step generalizing here with
  | done | fail | change => exact ⟨_, rfl⟩
  | look next ih => exact ih here.traversal here

/-- A step from some progress on comes to carry out another one, and goes on with what that gives. -/
inductive Calls (call : Emission β) (here : Progress) : Emission α → Progress → Prop
  | now (next : β → Emission α) : Calls call here (call >>= next) here
  | look {next : Traversal → Emission α} {progress : Progress}
      (later : Calls call here (next progress.traversal) progress) : Calls call here (.look next) progress
  | change {action : Progress → Progress} {next : Emission α} {progress : Progress}
      (later : Calls call here next (action progress)) : Calls call here (.change action next) progress

theorem Calls.of_change {call : Emission β} {here progress : Progress} {action : Progress → Progress}
    {next : Emission α} (calls : Calls call here (.change action next) progress)
    (other : ∀ after, call >>= after ≠ .change action next) : Calls call here next (action progress) := by
  generalize whole : Emission.change action next = step at calls
  cases calls with
  | now after => exact absurd whole.symm (other after)
  | look => exact nomatch whole
  | change later =>
    cases whole
    exact later

def Makes (move : Traversal → Traversal → Prop) (allowed : EmitError → Prop) : Emission α → Progress → Prop
  | done _, _ => True
  | fail error, _ => allowed error
  | look next, here => Makes move allowed (next here.traversal) here
  | change action next, here => move here.traversal (action here).traversal ∧ Makes move allowed next (action here)

namespace Makes

variable {step : Emission α}

theorem of_adjacent {before : Progress} (makes : step.Makes move allowed here)
    (next : [before, after] <:+: step.points here) :
    ReflTransGen move here.traversal before.traversal ∧ move before.traversal after.traversal := by
  induction step generalizing here with
  | done | fail => exact absurd next.length_le (by simp [points])
  | look rest ih => exact ih here.traversal makes next
  | change action rest ih =>
    rcases List.infix_cons_iff.1 next with first | later
    · obtain ⟨rfl, second⟩ := List.cons_prefix_cons.1 first
      obtain ⟨more, points⟩ := points_eq_cons rest (action before)
      rw [points] at second
      obtain ⟨rfl, -⟩ := List.cons_prefix_cons.1 second
      exact ⟨.refl, makes.1⟩
    · obtain ⟨moves, moved⟩ := ih makes.2 later
      exact ⟨.head makes.1 moves, moved⟩

theorem moves_to {point : Progress} (makes : step.Makes move allowed here)
    (mem : point ∈ step.points here) : ReflTransGen move here.traversal point.traversal := by
  induction step generalizing here with
  | done | fail => exact List.mem_singleton.1 mem ▸ .refl
  | look rest ih => exact ih here.traversal makes mem
  | change _ _ ih =>
    rcases List.mem_cons.1 mem with rfl | later
    · exact .refl
    · exact .head makes.1 (ih makes.2 later)

theorem moves_of_ok {result : α} (makes : step.Makes move allowed here)
    (done : step here = .ok result after) : ReflTransGen move here.traversal after.traversal := by
  induction step generalizing here with
  | done => exact (EStateM.Result.ok.inj done).2 ▸ .refl
  | fail => exact nomatch done
  | look rest ih => exact ih here.traversal makes done
  | change _ _ ih => exact .head makes.1 (ih makes.2 done)

theorem allowed_of_error {error : EmitError} (makes : step.Makes move allowed here)
    (failed : step here = .error error after) : allowed error := by
  induction step generalizing here with
  | done => exact nomatch failed
  | fail => exact (EStateM.Result.error.inj failed).1 ▸ makes
  | look rest ih => exact ih here.traversal makes failed
  | change _ _ ih => exact ih makes.2 failed

theorem of_bind {next : α → Emission β} (makes : (step >>= next).Makes move allowed here) :
    step.Makes move allowed here := by
  induction step generalizing here with
  | done => trivial
  | fail => exact makes
  | look rest ih => exact ih here.traversal makes
  | change _ _ ih => exact ⟨makes.1, ih makes.2⟩

end Makes

theorem Calls.makes {call : Emission β} {step : Emission α} (calls : Calls call there step here)
    (makes : step.Makes move allowed here) :
    ReflTransGen move here.traversal there.traversal ∧ call.Makes move allowed there := by
  induction calls with
  | now => exact ⟨.refl, makes.of_bind⟩
  | look _ ih => exact ih makes
  | change _ ih => exact (ih makes.2).imp_left (.head makes.1)

def Goes (move : Traversal → Traversal → Prop) (allowed : EmitError → Prop) (post : α → Progress → Prop) :
    Emission α → Progress → Prop
  | done result, here => post result here
  | fail error, _ => allowed error
  | look next, here => Goes move allowed post (next here.traversal) here
  | change action next, here =>
    move here.traversal (action here).traversal ∧ Goes move allowed post next (action here)

namespace Goes

variable {post : α → Progress → Prop} {post' : β → Progress → Prop} {step : Emission α}
  {next : α → Emission β}

theorem makes (goes : step.Goes move allowed post here) : step.Makes move allowed here := by
  induction step generalizing here with
  | done => trivial
  | fail => exact goes
  | look next ih => exact ih here.traversal goes
  | change _ _ ih => exact ⟨goes.1, ih goes.2⟩

theorem of_ok {result : α} (goes : step.Goes move allowed post here) (done : step here = .ok result after) :
    post result after := by
  induction step generalizing here with
  | done =>
    obtain ⟨rfl, rfl⟩ := EStateM.Result.ok.inj done
    exact goes
  | fail => exact nomatch done
  | look next ih => exact ih here.traversal goes done
  | change _ _ ih => exact ih goes.2 done

theorem bind (first : step.Goes move allowed post here)
    (rest : ∀ result after, ReflTransGen move here.traversal after.traversal → post result after →
      (next result).Goes move allowed post' after) : (step >>= next).Goes move allowed post' here := by
  induction step generalizing here with
  | done result => exact rest result here .refl first
  | fail => exact first
  | look _ ih => exact ih here.traversal first rest
  | change _ _ ih =>
    exact ⟨first.1, ih first.2 fun result after moves => rest result after (.head first.1 moves)⟩

theorem chain
    (first : step.Goes move allowed (fun result after => (next result).Goes move allowed post' after) here) :
    (step >>= next).Goes move allowed post' here :=
  first.bind fun _ _ _ rest => rest

theorem mono {weaker : α → Progress → Prop} (goes : step.Goes move allowed post here)
    (weakens : ∀ result after, ReflTransGen move here.traversal after.traversal → post result after →
      weaker result after) : step.Goes move allowed weaker here := by
  have bound : (step >>= Pure.pure).Goes move allowed weaker here := goes.bind weakens
  rwa [bind_pure] at bound

theorem traversal {next : Traversal → Emission α} (rest : (next here.traversal).Goes move allowed post here) :
    (traversal >>= next).Goes move allowed post here :=
  rest

theorem update {action : Traversal → Traversal} {next : Unit → Emission α}
    (moved : move here.traversal (action here.traversal))
    (rest : (next ()).Goes move allowed post { here with traversal := action here.traversal }) :
    (update action >>= next).Goes move allowed post here :=
  ⟨moved, rest⟩

theorem of_except {result : Except EmitError β} {next : β → Emission α}
    (fails : ∀ error, result = .error error → allowed error)
    (rest : ∀ b, result = .ok b → (next b).Goes move allowed post here) :
    (ofExcept result >>= next).Goes move allowed post here := by
  cases result with
  | ok b => exact rest b rfl
  | error error => exact fails error rfl

theorem arrive {x : BlockId} {hinted : List BlockId} (moved : ∀ t : Traversal, move t (t.unhint x))
    (rest : ReflTransGen move here.traversal (arrived here.traversal hinted x) →
      step.Goes move allowed post { here with traversal := arrived here.traversal hinted x }) :
    Goes move allowed post (do
      if x ∈ hinted then Emission.update (·.unhint x)
      step) here := by
  unfold arrived at rest
  split at rest
  · rename_i mem
    rw [if_pos mem]
    exact update (moved _) (rest (.single (moved _)))
  · rename_i absent
    rw [if_neg absent]
    exact rest .refl

end Goes

end Reflow.Emission
