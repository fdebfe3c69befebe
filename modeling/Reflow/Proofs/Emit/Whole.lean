import Reflow.Proofs.Emit.Blocks

namespace Reflow.Setting

open Program Emission Reading

variable {s : Setting} {t t' : Traversal} {b : BlockId}

theorem Valid.exists_block (valid : s.Valid) (ready : t.Ready s.procedure b) : b ∈ s.procedure.blockIds ∧
    ∃ body last, s.function.HasBlock b body last ∧ last.instr.isExit := by
  have wf := valid.branches.wellFormed
  have known : b ∈ s.procedure.blockIds := by
    rcases ready.origin with rfl | ⟨c, -, leads⟩
    · apply FunctionOf.mem_blockIds_iff.2
      exact ⟨_, List.getElem?_eq_getElem (List.length_pos_of_ne_nil wf.nonempty)⟩
    · obtain ⟨d, -, edge⟩ := leads.exists_pred (Nat.succ_ne_self c).symm
      exact wf.mem_blockIds_of_edge edge
  obtain ⟨block, found⟩ := FunctionOf.mem_blockIds_iff.1 known
  obtain ⟨body, last, has, -, exit⟩ := valid.branches.exists_block found
  exact ⟨known, body, last, has, exit⟩

theorem Valid.renders (valid : s.Valid) (fuel : Nat) : s.Renders (s.emitter.emitWithin fuel) fuel := by
  induction fuel with
  | zero =>
    intro t b one fits enough
    have := Traversal.unrendered_render_lt (valid.exists_block fits.ready).1 fits.ready.fresh
    omega
  | succ fuel ih =>
    intro t b one fits enough
    obtain ⟨known, body, last, has, exit⟩ := valid.exists_block fits.ready
    have fewer := Traversal.unrendered_render_lt known fits.ready.fresh
    unfold Emitter.emitWithin
    rw [if_neg (not_not.2 (show b ∈ s.emitter.procedure.blockIds from known))]
    apply Meets.traversal
    rw [if_neg (by simpa [Traversal.isRendered] using fits.ready.fresh)]
    exact valid.freshBlock_meets ih one has exit fits (by omega)

structure Idle (s : Setting) (t : Traversal) : Prop where
  sound : t.Sound s.procedure none
  frontier : t.frontier = []
  openExits : t.openExits = []
  pending : ∀ x ∈ t.jumpTargets, x ∈ t.rendered ∨ s.home x = none

theorem Idle.empty (s : Setting) : s.Idle {} where
  sound := .empty s.procedure
  frontier := rfl
  openExits := rfl
  pending := by simp

theorem Idle.fits (idle : s.Idle t) (home : s.home b = none) (fresh : b ∉ t.rendered)
    (origin : b = s.procedure.entry ∨ ∃ c ∈ t.rendered, s.procedure.Leads c b) : s.Fits t b := by
  refine ⟨idle.sound.ready idle.frontier fresh origin, by simp [home], by simp [home], ?_⟩
  intro x mem
  exact (idle.pending x mem).imp id fun outside => .inr (.inl outside)

theorem Idle.after (idle : s.Idle t) (rendered : s.Rendered t t' b) : s.Idle t' := by
  have keeps := rendered.keeps
  have frontier : t'.frontier = [] := keeps.frontier.trans idle.frontier
  refine ⟨rendered.sound, frontier, keeps.openExits.trans idle.openExits, ?_⟩
  intro x mem
  rcases rendered.pending x mem with done | deferred | outside
  · exact .inl done
  · simp [Traversal.isDeferred, frontier] at deferred
  · exact .inr outside

theorem Idle.next (idle : s.Idle t) (least : Nat) (resume : Resume) : s.Next none t least resume := by
  simp [Next, idle.frontier]

theorem Valid.emitBlock_meets (valid : s.Valid) (idle : s.Idle t) (home : s.home b = none) (fresh : b ∉ t.rendered)
    (origin : b = s.procedure.entry ∨ ∃ c ∈ t.rendered, s.procedure.Leads c b) :
    Yields (s.emitter.emitBlock b false) t fun lines t' => s.Idle t' ∧ t.Grows t' ∧
      ∃ codes, Gives (Line.tokens lines) codes ∧
        Means s.function s.name t.printed t'.printed t'.jumpTargets (fun _ _ => True)
          (Follows s.function b) (Code.sequence codes) := by
  have fits := idle.fits home fresh origin
  apply (valid.renders _ t b false fits (Traversal.unrendered_le_blocks s.procedure t)).mono
  rintro lines t' ⟨rendered, code, ⟨codes, rfl, gives⟩, means⟩
  refine ⟨idle.after rendered, rendered.keeps.toGrows, codes, gives, ?_⟩
  rw [home] at means
  exact means.mono (.refl _) (fun _ _ _ => idle.next _ _) fun _ _ follows => follows

theorem Valid.emitPending_meets (valid : s.Valid) (fuel : Nat) (idle : s.Idle t) :
    Yields (s.emitter.emitPending fuel) t fun lines t' => t.Grows t' ∧ ∃ codes, Gives (Line.tokens lines) codes ∧
        Means s.function s.name t.printed t'.printed t'.jumpTargets (fun _ _ => True) (fun _ _ => True)
          (Code.sequence codes) := by
  induction fuel generalizing t with
  | zero => exact Meets.pure ⟨.refl t, [], Gives.nil, Means.skip⟩
  | succ fuel ih =>
    unfold Emitter.emitPending
    apply Meets.traversal
    cases pending : t.nextPending? with
    | none => exact Meets.pure ⟨.refl t, [], Gives.nil, Means.skip⟩
    | some target =>
      obtain ⟨jumped, fresh⟩ := Traversal.mem_of_nextPending? pending
      have home := (idle.pending target jumped).resolve_left fresh
      obtain ⟨c, rendered, edge⟩ := idle.sound.targets target jumped
      apply (valid.emitBlock_meets idle home fresh (.inr ⟨c, rendered, .inl edge⟩)).andThen
      rintro lines t' ⟨idle', grows, codes, gives, means⟩
      apply (ih idle').andThen
      rintro more t'' ⟨grows', codes', gives', means'⟩
      apply Meets.pure
      refine ⟨grows.trans grows', codes ++ codes', ?_, ?_⟩
      · rw [Line.tokens_append]
        exact gives.append gives'
      · apply Means.append valid.branches.labelText_injective grows.printed grows'.printed _ means'
        exact means.mono grows'.jumpTargets (fun _ _ _ => trivial) fun _ _ _ => trivial

theorem checkJumps_meets : Yields s.emitter.checkJumps t fun _ t' => t' = t ∧ t.jumpTargets ⊆ t.printed := by
  unfold Emitter.checkJumps
  apply Meets.traversal
  cases unlabelled : t.nextUnlabelled? with
  | none => exact Meets.pure ⟨rfl, Traversal.subset_of_nextUnlabelled? unlabelled⟩
  | some =>
    apply Meets.of_except _ fun _ _ => trivial
    exact fun _ _ => Meets.throw trivial

theorem Valid.emit_meets (valid : s.Valid) :
    Yields s.emitter.emit {} fun lines _ => ∃ codes, Gives (Line.tokens lines) codes ∧
      ∀ outcomes, SameRuns ((Code.sequence codes).runUpTo · outcomes) (s.function.follow · 0 outcomes) := by
  have idle := Idle.empty s
  unfold Emitter.emit
  apply (valid.emitBlock_meets idle valid.homes.entry (by simp) (.inl rfl)).andThen
  rintro lines t ⟨idle, grows, codes, gives, means⟩
  apply (valid.emitPending_meets _ idle).andThen
  rintro more t' ⟨grows', codes', gives', means'⟩
  apply checkJumps_meets.andThen
  rintro - t'' ⟨rfl, labelled⟩
  apply Meets.pure
  refine ⟨codes ++ codes', ?_, ?_⟩
  · rw [Line.tokens_append]
    exact gives.append gives'
  · have whole : Means s.function s.name [] t''.printed t''.jumpTargets (fun _ _ => True)
        (Follows s.function 0) (Code.sequence (codes ++ codes')) := by
      apply Means.append valid.branches.labelText_injective grows.printed grows'.printed _ means'
      exact means.mono grows'.jumpTargets (fun _ _ next => next) fun _ _ follows => follows
    exact sameRuns_of_follows fun limit => whole.runUpTo labelled limit

theorem Valid.sameRuns (valid : s.Valid) (indent : Nat) {lines : List Line} {progress : Progress}
    (emitted : s.emitter.emit {} = .ok lines progress) : ∃ code, Code.read? (layOut indent lines) = some code ∧
      ∀ outcomes, SameRuns (code.runUpTo · outcomes) (s.function.follow · 0 outcomes) := by
  have meets := valid.emit_meets {} rfl
  rw [emitted] at meets
  obtain ⟨codes, gives, same⟩ := meets
  refine ⟨_, ?_, same⟩
  rw [Code.read?, Token.ofText_layOut]
  exact gives.ofTokens?

end Reflow.Setting
