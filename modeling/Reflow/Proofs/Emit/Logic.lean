import Mathlib.Tactic
import Reflow.Emit.Basic

namespace Reflow.Emission

variable {α β : Type} {allowed : EmitError → Prop} {t : Traversal} {x : BlockId} {hinted : List BlockId} {a : α}
  {step step' : Emission α} {next : α → Emission β} {post : α → Traversal → Prop} {post' : β → Traversal → Prop}

def Meets (allowed : EmitError → Prop) (step : Emission α) (t : Traversal) (post : α → Traversal → Prop) : Prop :=
  ∀ progress : Progress, progress.traversal = t →
    match step progress with
    | .ok a after => post a after.traversal
    | .error error _ => allowed error

abbrev Ensures (step : Emission α) (t : Traversal) (post : α → Traversal → Prop) : Prop :=
  Meets (fun _ => False) step t post

abbrev Yields (step : Emission α) (t : Traversal) (post : α → Traversal → Prop) : Prop :=
  Meets (fun _ => True) step t post

namespace Meets

variable {result : Except EmitError α}

theorem mono {weak : α → Traversal → Prop} (meets : Meets allowed step t post)
    (weaker : ∀ a t', post a t' → weak a t') : Meets allowed step t weak := by
  intro progress same
  have result := meets progress same
  cases outcome : step progress with
  | ok =>
    rw [outcome] at result
    exact weaker _ _ result
  | error =>
    rw [outcome] at result
    exact result

theorem allow {allowed' : EmitError → Prop} (meets : Meets allowed step t post)
    (wider : ∀ error, allowed error → allowed' error) : Meets allowed' step t post := by
  intro progress same
  have result := meets progress same
  cases outcome : step progress with
  | ok =>
    rw [outcome] at result
    exact result
  | error error =>
    rw [outcome] at result
    exact wider error result

theorem pure (holds : post a t) : Meets allowed (Pure.pure a) t post := by
  rintro progress rfl
  exact holds

theorem throw {error : EmitError} (holds : allowed error) : Meets allowed (MonadExcept.throw error) t post := by
  rintro progress rfl
  exact holds

theorem bind (meets : Meets allowed step t fun a t' => Meets allowed (next a) t' post') :
    Meets allowed (step >>= next) t post' := by
  intro progress same
  have result := meets progress same
  rw [run_bind]
  cases outcome : step progress with
  | ok a after =>
    rw [outcome] at result
    exact result after rfl
  | error =>
    rw [outcome] at result
    exact result

theorem andThen (meets : Meets allowed step t post)
    (rest : ∀ a t', post a t' → Meets allowed (next a) t' post') : Meets allowed (step >>= next) t post' :=
  bind (meets.mono rest)

theorem ite {cond : Bool} (yes : cond = true → Meets allowed step t post)
    (no : cond = false → Meets allowed step' t post) : Meets allowed (if cond then step else step') t post := by
  cases cond with
  | true => exact yes rfl
  | false => exact no rfl

theorem bind_ite {cond : Prop} [Decidable cond]
    (meets : Meets allowed (if cond then step else step') t fun a t' => Meets allowed (next a) t' post') :
    Meets allowed (if cond then step >>= next else step' >>= next) t post' := by
  split
  · rename_i holds
    rw [if_pos holds] at meets
    exact bind meets
  · rename_i fails
    rw [if_neg fails] at meets
    exact bind meets

theorem traversal {next : Traversal → Emission α} (meets : Meets allowed (next t) t post) :
    Meets allowed (traversal >>= next) t post := by
  rintro progress rfl
  exact meets progress rfl

theorem update {change : Traversal → Traversal} {next : Unit → Emission α}
    (meets : Meets allowed (next ()) (change t) post) : Meets allowed (update change >>= next) t post := by
  rintro progress rfl
  exact meets { progress with traversal := change progress.traversal } rfl

theorem noteJump {target : BlockId} {next : Unit → Emission α}
    (meets : Meets allowed (next ()) (t.jumpTo target) post) : Meets allowed (noteJump target >>= next) t post := by
  rintro progress rfl
  exact meets { progress with traversal := _, jumps := _ } rfl

theorem noteLabel {b : BlockId} {next : Unit → Emission α}
    (meets : Meets allowed (next ()) (t.print b) post) : Meets allowed (noteLabel b >>= next) t post := by
  rintro progress rfl
  exact meets { progress with traversal := _, labels := _ } rfl

theorem of_except (meets : ∀ a, result = .ok a → Meets allowed (next a) t post')
    (fails : ∀ error, result = .error error → allowed error) : Meets allowed (ofExcept result >>= next) t post' := by
  cases result with
  | ok a => exact meets a rfl
  | error error => exact throw (fails error rfl)

theorem of_ok (found : result = .ok a) (meets : Meets allowed (next a) t post') :
    Meets allowed (ofExcept result >>= next) t post' := by
  subst found
  exact meets

theorem ok_or_error (progress : Progress) (meets : Meets allowed step progress.traversal post) :
    (∃ a after, step progress = .ok a after ∧ post a after.traversal) ∨
      ∃ error after, step progress = .error error after ∧ allowed error := by
  have result := meets progress rfl
  cases outcome : step progress with
  | ok a after => exact .inl ⟨a, after, rfl, by simpa [outcome] using result⟩
  | error error after => exact .inr ⟨error, after, rfl, by simpa [outcome] using result⟩

theorem exists_ok (progress : Progress) (meets : Meets allowed step progress.traversal post)
    (none : ∀ error, ¬ allowed error) : ∃ a after, step progress = .ok a after ∧ post a after.traversal := by
  rcases meets.ok_or_error progress with done | ⟨error, after, -, may⟩
  · exact done
  · exact absurd may (none error)

end Meets

def arrived (t : Traversal) (hinted : List BlockId) (x : BlockId) : Traversal :=
  if x ∈ hinted then t.unhint x else t

theorem arrived_eq (t : Traversal) (hinted : List BlockId) (x : BlockId) :
    arrived t hinted x = { t with hints := (arrived t hinted x).hints } := by
  unfold arrived
  split <;> rfl

theorem arrive_meets (meets : Meets allowed step (arrived t hinted x) post) : Meets allowed (do
      if x ∈ hinted then update (·.unhint x)
      step) t post := by
  unfold arrived at meets
  split at meets
  · rename_i mem
    rw [if_pos mem]
    exact Meets.update meets
  · rename_i absent
    rw [if_neg absent]
    exact meets

theorem foldl_hint (targets : List BlockId) (t : Traversal) :
    targets.foldl Traversal.hint t = { t with hints := targets.reverse ++ t.hints } := by
  induction targets generalizing t with
  | nil => rfl
  | cons _ _ ih => simp [ih, Traversal.hint]

end Reflow.Emission
