import Reflow.Proofs.Total.Blocks

namespace Reflow.Emitter

open Emission

variable {e : Emitter} {t t' : Traversal} {b : BlockId}

theorem Apt.mem_blockIds (apt : e.Apt) (ready : t.Ready e.procedure b) : b ∈ e.procedure.blockIds := by
  rcases ready.origin with rfl | ⟨c, -, leads⟩
  · exact apt.routed.entry
  · obtain ⟨d, -, edge⟩ := leads.exists_pred (Nat.succ_ne_self c).symm
    exact apt.routed.known d edge

theorem Apt.renders (apt : e.Apt) (fuel : Nat) : e.Renders (e.emitWithin fuel) fuel := by
  induction fuel with
  | zero =>
    intro t b one fits enough
    have := Traversal.unrendered_render_lt (apt.mem_blockIds fits.ready) fits.ready.fresh
    omega
  | succ fuel ih =>
    intro t b one fits enough
    have listed := apt.mem_blockIds fits.ready
    have fewer := Traversal.unrendered_render_lt listed fits.ready.fresh
    unfold Emitter.emitWithin
    rw [if_neg (not_not.2 listed)]
    apply Meets.traversal
    rw [if_neg (by simpa [Traversal.isRendered] using fits.ready.fresh)]
    exact apt.freshBlock_meets ih one fits listed (by omega)

structure Idle (e : Emitter) (t : Traversal) : Prop where
  sound : t.Sound e.procedure none
  frontier : t.frontier = []
  hints : t.hints = []
  tidy : e.Tidy t
  finished : ∀ c ∈ t.rendered, e.Finished t c

theorem Idle.empty (e : Emitter) : e.Idle {} where
  sound := .empty e.procedure
  frontier := rfl
  hints := rfl
  tidy := ⟨by simp, by simp, by simp⟩
  finished := by simp

theorem Idle.fits (idle : e.Idle t) (fresh : b ∉ t.rendered)
    (origin : b = e.procedure.entry ∨ ∃ c ∈ t.rendered, e.procedure.Leads c b) : e.Fits t b where
  ready := idle.sound.ready idle.frontier fresh origin
  tidy := idle.tidy
  hinted := by simp [idle.hints]
  heeded c rendered x edge _ := .inl ((idle.finished c rendered).known x edge)

theorem Idle.after (idle : e.Idle t) (rendered : e.Rendered t t' b) : e.Idle t' where
  sound := rendered.sound
  frontier := rendered.passes.frontier.trans idle.frontier
  hints := List.Perm.eq_nil (idle.hints ▸ rendered.passes.hints)
  tidy := rendered.tidy
  finished c mem := by
    by_cases old : c ∈ t.rendered
    · exact (idle.finished c old).after rendered.passes.toCarries fun _ => rendered.passes.knows
    · exact rendered.finishes c mem old

theorem Apt.emitBlock_meets (apt : e.Apt) (idle : e.Idle t) (fresh : b ∉ t.rendered)
    (origin : b = e.procedure.entry ∨ ∃ c ∈ t.rendered, e.procedure.Leads c b) :
    Ensures (e.emitBlock b false) t fun _ t' => e.Idle t' ∧ t.Grows t' ∧ b ∈ t'.rendered := by
  apply (apt.renders _ t b false (idle.fits fresh origin) (Traversal.unrendered_le_blocks e.procedure t)).mono
  exact fun _ t' rendered => ⟨idle.after rendered, rendered.passes.toGrows, rendered.rendered⟩

theorem Apt.emitPending_meets (apt : e.Apt) (fuel : Nat) (idle : e.Idle t) (enough : t.unrendered e.procedure ≤ fuel) :
    Ensures (e.emitPending fuel) t fun _ t' =>
      e.Idle t' ∧ t.Grows t' ∧ t'.jumpTargets ⊆ t'.rendered := by
  have listed {t : Traversal} (idle : e.Idle t) {x : BlockId} (jumped : x ∈ t.jumpTargets) :
      x ∈ e.procedure.blockIds := by
    obtain ⟨c, -, edge⟩ := idle.sound.targets x jumped
    exact apt.routed.known c edge
  induction fuel generalizing t with
  | zero =>
    apply Meets.pure
    refine ⟨idle, .refl t, ?_⟩
    intro x jumped
    by_contra fresh
    have := Traversal.unrendered_render_lt (listed idle jumped) fresh
    omega
  | succ fuel ih =>
    unfold Emitter.emitPending
    apply Meets.traversal
    cases pending : t.nextPending? with
    | none =>
      exact Meets.pure ⟨idle, .refl t, Traversal.subset_of_nextPending? pending⟩
    | some target =>
      obtain ⟨jumped, fresh⟩ := Traversal.mem_of_nextPending? pending
      obtain ⟨c, rendered, edge⟩ := idle.sound.targets target jumped
      apply (apt.emitBlock_meets idle fresh (.inr ⟨c, rendered, .inl edge⟩)).andThen
      rintro lines t' ⟨idle', grows, new⟩
      apply Meets.bind
      have fewer := Traversal.unrendered_lt (listed idle jumped) fresh grows.rendered new
      apply (ih idle' (by omega)).mono
      rintro _ t'' ⟨idle'', grows', done⟩
      exact Meets.pure ⟨idle'', grows.trans grows', done⟩

section

variable (idle : e.Idle t) (done : t.jumpTargets ⊆ t.rendered) (entry : e.procedure.entry ∈ t.rendered)
include idle done entry

theorem Idle.rendered_of_reachable (reach : e.procedure.Reachable b) : b ∈ t.rendered := by
  apply reach.forward entry
  intro c x rendered edge forward
  rcases (idle.finished c rendered).known x edge with (known | jumped | aside) | returns
  · exact known
  · exact done jumped
  · obtain ⟨depth, mem⟩ := Traversal.isDeferred_iff.1 aside
    simp [idle.frontier] at mem
  · simp [returns.1] at forward

theorem Idle.unlabelled_of_stray {c : BlockId} (stray : e.procedure.Stray c b) : b ∈ t.jumpTargets ∧ b ∉ t.printed :=
  have rendered := idle.rendered_of_reachable done entry stray.reachable
  ((idle.finished c rendered).stranded b stray).2

end

def Strands (e : Emitter) (error : EmitError) : Prop :=
  ∃ x text, (e.procedure.Quiet x ∧ e.procedure.Unannounced x) ∧ (∀ c y, e.procedure.Stray c y → x ≤ y) ∧
    e.labels.label x = .ok text ∧ error = .danglingJump x text

theorem Idle.checkJumps_meets (idle : e.Idle t) (done : t.jumpTargets ⊆ t.rendered)
    (entry : e.procedure.entry ∈ t.rendered) :
    Meets e.Strands e.checkJumps t fun _ _ => ∀ c x, ¬ e.procedure.Stray c x := by
  unfold Emitter.checkJumps
  apply Meets.traversal
  cases unlabelled : t.nextUnlabelled? with
  | none =>
    apply Meets.pure
    intro c x stray
    obtain ⟨jumped, unprinted⟩ := idle.unlabelled_of_stray done entry stray
    exact unprinted (Traversal.subset_of_nextUnlabelled? unlabelled jumped)
  | some target =>
    obtain ⟨jumped, unprinted⟩ := Traversal.mem_of_nextUnlabelled? unlabelled
    obtain ⟨text, found⟩ := idle.tidy.labelled target jumped
    apply Meets.of_ok found
    apply Meets.throw
    refine ⟨target, text, ⟨(idle.tidy.printed target (done jumped) unprinted).2,
      (idle.tidy.jumped target jumped (done jumped)).resolve_left unprinted⟩, fun c x stray => ?_, found, rfl⟩
    obtain ⟨jumped, unprinted⟩ := idle.unlabelled_of_stray done entry stray
    exact Traversal.nextUnlabelled?_le unlabelled jumped unprinted

theorem Apt.emit_meets (apt : e.Apt) : Meets e.Strands e.emit {} fun _ _ => ∀ c x, ¬ e.procedure.Stray c x := by
  unfold Emitter.emit
  apply ((apt.emitBlock_meets (Idle.empty e) (by simp) (.inl rfl)).allow fun _ => False.elim).andThen
  rintro lines t ⟨idle, -, rendered⟩
  apply ((apt.emitPending_meets _ idle (Traversal.unrendered_le_blocks e.procedure t)).allow
    fun _ => False.elim).andThen
  rintro pending t' ⟨idle', grows, done⟩
  apply (idle'.checkJumps_meets done (grows.rendered rendered)).andThen
  exact fun _ _ strayless => Meets.pure strayless

end Reflow.Emitter
