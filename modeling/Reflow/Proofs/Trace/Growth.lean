import Reflow.Proofs.Trace.Rules

namespace Reflow

open Emission

variable {t t' : Traversal} {b x : BlockId} {hinted : List BlockId}

namespace Traversal

theorem grows_jumpTo (t : Traversal) (x : BlockId) : t.Grows (t.jumpTo x) where
  rendered := .refl _
  printed := .refl _
  jumpTargets _ old := mem_addNew.2 (.inr old)

theorem jumps_eq (targets : List BlockId) (t : Traversal) :
    targets.foldl jumpTo t = { t with jumpTargets := (targets.foldl jumpTo t).jumpTargets } := by
  induction targets generalizing t with
  | nil => rfl
  | cons x _ ih => exact ih (t.jumpTo x)

theorem mem_jumps {targets : List BlockId} {t : Traversal} {x : BlockId} :
    x ∈ (targets.foldl jumpTo t).jumpTargets ↔ x ∈ targets ∨ x ∈ t.jumpTargets := by
  induction targets generalizing t with
  | nil => simp
  | cons _ _ ih =>
    rw [List.foldl_cons, ih, jumpTo, mem_addNew, List.mem_cons]
    tauto

theorem grows_jumps (targets : List BlockId) (t : Traversal) : t.Grows (targets.foldl jumpTo t) where
  rendered := by rw [jumps_eq]; exact .refl _
  printed := by rw [jumps_eq]; exact .refl _
  jumpTargets _ old := mem_jumps.2 (.inr old)

theorem grows_render (t : Traversal) (b : BlockId) : t.Grows (t.render b) where
  rendered _ old := mem_addNew.2 (.inr old)
  printed := .refl _
  jumpTargets := .refl _

theorem grows_printIf (t : Traversal) (b : BlockId) (needed : Bool) : t.Grows (t.printIf b needed) where
  rendered := by simp
  printed _ old := mem_printIf_printed.2 (.inr old)
  jumpTargets := by simp

theorem grows_undefer (t : Traversal) (join : BlockId) : t.Grows (t.undefer join) :=
  ⟨.refl _, .refl _, .refl _⟩

theorem grows_claim (t : Traversal) (join : BlockId) : t.Grows (t.claim join) :=
  ⟨.refl _, .refl _, .refl _⟩

theorem grows_arrived (t : Traversal) (hinted : List BlockId) (x : BlockId) : t.Grows (arrived t hinted x) := by
  rw [arrived_eq]
  exact ⟨.refl _, .refl _, .refl _⟩

theorem grows_hints (t : Traversal) (hinted : List BlockId) : t.Grows (hinted.foldl hint t) := by
  rw [foldl_hint]
  exact ⟨.refl _, .refl _, .refl _⟩

end Traversal

theorem Way.grows_entered (way : Way) (t : Traversal) : t.Grows (way.entered t) := by
  cases way <;> exact ⟨.refl _, .refl _, .refl _⟩

theorem Way.grows_left (way : Way) (t : Traversal) : t.Grows (way.left t) := by
  cases way <;> exact ⟨.refl _, .refl _, .refl _⟩

namespace Emitter

variable {e : Emitter} {task : Task} {lines : List Line}

theorem begun_eq (e : Emitter) (t : Traversal) (b : BlockId) :
    e.begun t b = { t.render b with frontier := (e.begun t b).frontier } := by
  unfold begun
  cases e.setAside t b <;> rfl

theorem grows_begun (e : Emitter) (t : Traversal) (b : BlockId) : t.Grows (e.begun t b) := by
  rw [begun_eq]
  exact ⟨(t.grows_render b).rendered, .refl _, .refl _⟩

theorem grows_started (e : Emitter) (t : Traversal) (b : BlockId) (needed : Bool) (stmts : List (Stmt × Kind)) :
    t.Grows (e.started t b needed stmts) :=
  (e.grows_begun t b).trans (((e.begun t b).grows_printIf b needed).trans (Traversal.grows_printIf _ b _))

theorem mem_started_rendered {needed : Bool} {stmts : List (Stmt × Kind)} {c : BlockId} :
    c ∈ (e.started t b needed stmts).rendered ↔ c = b ∨ c ∈ t.rendered := by
  unfold started
  rw [Traversal.printIf_rendered, Traversal.printIf_rendered, begun_eq]
  exact mem_addNew

theorem Lays.grows (lays : e.Lays task t lines t') : t.Grows t' := by
  induction lays with
  | block _ _ _ _ _ _ _ _ ihFollows ihJoins =>
    exact (e.grows_started ..).trans (ihFollows.trans ihJoins)
  | passed | joined | returned | armsDone | casesDone | ends | noJoin => exact .refl _
  | jumped => exact Traversal.grows_jumpTo ..
  | entered _ _ ih => exact (Way.grows_entered ..).trans (ih.trans (Way.grows_left ..))
  | arm _ _ ihHere ihLater => exact (Traversal.grows_arrived ..).trans (ihHere.trans ihLater)
  | elided _ _ _ ih => exact (Traversal.grows_arrived ..).trans ih
  | case _ _ ihHere ihLater => exact ihHere.trans ihLater
  | claimed _ _ _ _ _ ih => exact (Traversal.grows_claim ..).trans ih
  | conditional _ _ ihFirst ihSecond =>
    exact (Traversal.grows_hints ..).trans (ihFirst.trans ((Traversal.grows_arrived ..).trans ihSecond))
  | loop _ _ ihInner ihOuter => exact ihInner.trans ihOuter
  | multiway _ _ ih => exact (Traversal.grows_hints ..).trans ih
  | switch _ ih => exact ih
  | jumps => exact Traversal.grows_jumps ..
  | falls _ _ _ ih => exact ih
  | settled => exact Traversal.grows_undefer ..
  | followed _ _ ih => exact (Traversal.grows_undefer ..).trans ih

theorem isRendered_iff : t.isRendered b = true ↔ b ∈ t.rendered := by
  simp [Traversal.isRendered]

theorem hintedAt_singleton (t : Traversal) (x : BlockId) :
    hintedAt t [x] = if !t.isDeferred x && !t.isJumpTarget x then [x] else [] := by
  unfold hintedAt
  cases hinted : !t.isDeferred x && !t.isJumpTarget x <;> simp [hinted, List.eraseDups_cons]

theorem Lays.mem_rendered {braced : Bool} (lays : e.Lays (.block b braced) t lines t') : b ∈ t'.rendered := by
  cases lays with
  | block _ _ _ _ _ _ follows joins =>
    exact joins.grows.rendered (follows.grows.rendered (mem_started_rendered.2 (.inl rfl)))

theorem Lays.unrendered_lt {braced : Bool} (lays : e.Lays (.block b braced) t lines t') :
    t'.unrendered e.procedure < t.unrendered e.procedure := by
  have new := lays.mem_rendered
  have grows := lays.grows
  cases lays with
  | block listed fresh => exact Traversal.unrendered_lt listed fresh grows.rendered new

end Emitter

end Reflow
