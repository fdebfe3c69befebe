import Reflow.Proofs.Total.Arms

namespace Reflow.Emitter

open Emission

variable {e : Emitter} {recurse : Recurse} {bound : Nat} {t t' t'' : Traversal} {b x y : BlockId}
  {targets : List BlockId} {deferred : Option BlockId}

/-- The targets of the arms of a switch to come. No join is left for the switch to take over: one that it immediately
dominates was not set aside before it. -/
structure Selects (e : Emitter) (t : Traversal) (b : BlockId) (deferred : Option BlockId) (targets : List BlockId) :
    Prop where
  inside : e.Inside t b
  edges : ∀ x ∈ targets, x ∈ e.procedure.succs b
  rendered : ∀ x ∈ targets, x ∈ t.rendered → e.procedure.analysis.ipdom? b = some x ∨
    (x ∈ t.printed ∨ e.procedure.Unannounced x) ∧ e.IsLabelled x
  hinted : ∀ x ∈ targets, x ∈ t.hints → e.IsLabelled x
  unclaimed : deferred = none → ∀ x, e.procedure.analysis.idom? x = some b → t.isDeferred x = false

theorem Selects.tail (selects : e.Selects t b deferred (x :: targets)) : e.Selects t b deferred targets :=
  ⟨selects.inside, fun y mem => selects.edges y (.tail _ mem),
    fun y mem => selects.rendered y (.tail _ mem), fun y mem => selects.hinted y (.tail _ mem),
    selects.unclaimed⟩

theorem Selects.after (selects : e.Selects t b deferred targets) (apt : e.Apt) (switches : e.procedure.Switches b)
    (reached : e.Reached b t t' [y]) (absent : y ∉ targets) : e.Selects t' b deferred targets where
  inside := reached.inside
  edges := selects.edges
  rendered := by
    intro x mem rendered
    have edge := selects.edges x mem
    by_cases old : x ∈ t.rendered
    · refine (selects.rendered x mem old).imp id ?_
      rintro ⟨printed, labelled⟩
      exact ⟨printed.imp (fun early => reached.passes.printed early) id, labelled⟩
    · have other : x ∉ [y] := by
        rintro named
        exact absent (List.mem_singleton.1 named ▸ mem)
      have pred := reached.adds.exists_pred selects.inside.within.rendered rendered old other
      by_cases printed : x ∈ t'.printed
      · exact .inr ⟨.inl printed, apt.labelled_of_pred edge (.inr pred)⟩
      · have several := apt.routed.one_lt_inDegree edge (.inr pred)
        rcases (reached.inside.tidy.printed x rendered printed).1 with few | preds
        · omega
        · exact .inl ((preds b edge).2 switches)
  hinted x mem hint := selects.hinted x mem (reached.passes.hints.mem_iff.1 hint)
  unclaimed none x idom := by
    rw [Traversal.isDeferred, reached.passes.frontier]
    exact selects.unclaimed none x idom

theorem Selects.switchArm_meets {arm : SwitchArm} (selects : e.Selects t b deferred (arm.target :: targets))
    (apt : e.Apt) (switches : e.procedure.Switches b) (renders : e.Renders recurse bound)
    (enough : t.unrendered e.procedure ≤ bound) :
    Ensures (e.switchArm recurse b deferred arm) t fun result t' =>
      e.Reached b t t' [arm.target] ∧ result.2 = deferred := by
  have inside := selects.inside
  have edge : arm.target ∈ e.procedure.succs b := selects.edges _ (.head _)
  unfold Emitter.switchArm
  apply Meets.traversal
  rw [apt.facts]
  refine Meets.ite (fun leaves => ?_) fun _ => Meets.ite (fun joins => ?_) fun passes => ?_
  · exact (inside.leave_meets apt false edge leaves).andThen fun _ _ reached => Meets.pure ⟨reached, rfl⟩
  · rw [beq_iff_eq] at joins
    rw [if_neg]
    · apply Meets.pure
      refine ⟨?_, rfl⟩
      rcases inside.within.sound.joins b inside.within.rendered _ joins with done | aside | same
      · exact inside.refl (by simp [Deals, Traversal.Knows, done])
      · exact inside.aside aside
      · simp at same
    · simp only [Bool.and_eq_true, Option.isNone_iff_eq_none, beq_iff_eq]
      rintro ⟨⟨⟨-, none⟩, aside⟩, idom⟩
      simp [selects.unclaimed none _ idom] at aside
  · refine Meets.ite (fun aside => Meets.pure ⟨inside.aside aside, rfl⟩) fun free => ?_
    refine Meets.ite (fun rendered => ?_) fun fresh => ?_
    · have old := selects.rendered _ (.head _) (of_decide_eq_true rendered)
      obtain ⟨printed, labelled⟩ := old.resolve_left (by simpa using passes)
      apply (inside.jump_meets false edge labelled fun _ => printed).andThen
      exact fun _ _ done => Meets.pure ⟨done.1, rfl⟩
    · have fresh : arm.target ∉ t.rendered := of_decide_eq_false fresh
      have known : e.Known t b arm.target :=
        ⟨fun old => absurd old fresh, selects.hinted _ (.head _)⟩
      apply Meets.bind
      apply (renders t _ true (inside.fits edge fresh free known fun _ _ _ => .inr (.inr (.inl switches))) enough).mono
      exact fun _ _ done => Meets.pure ⟨done.reached inside, rfl⟩

theorem Selects.switchArms_meets (apt : e.Apt) (switches : e.procedure.Switches b) (renders : e.Renders recurse bound)
    (arms : List SwitchArm) (selects : e.Selects t b deferred (arms.map (·.target)))
    (distinct : (arms.map (·.target)).Nodup) (enough : t.unrendered e.procedure ≤ bound) :
    Ensures (e.switchArms recurse b deferred arms) t fun result t' =>
      e.Reached b t t' (arms.map (·.target)) ∧ result.2 = deferred := by
  induction arms generalizing t with
  | nil => exact Meets.pure ⟨selects.inside.refl (by simp), rfl⟩
  | cons _ _ ih =>
    obtain ⟨absent, distinct⟩ := List.nodup_cons.1 distinct
    unfold Emitter.switchArms
    apply (selects.switchArm_meets apt switches renders enough).andThen
    rintro ⟨lines, _⟩ t' ⟨reached, rfl⟩
    apply (ih (selects.tail.after apt switches reached absent) distinct
      (reached.passes.unrendered_le.trans enough)).andThen
    rintro ⟨more, _⟩ t'' ⟨reached', rfl⟩
    exact Meets.pure ⟨reached.trans reached', rfl⟩

theorem Rendered.closeLoop (rendered : e.Rendered (t.openLoop y) t' x) {coming : Option BlockId}
    (sound : t.Sound e.procedure coming) : e.Rendered t t'.closeLoop x :=
  have keeps := rendered.passes.toKeeps.closeLoop
  { passes := { rendered.passes with openExits := keeps.openExits }
    sound := rendered.sound.closeLoop keeps sound
    tidy := { rendered.tidy with }
    rendered := rendered.rendered
    adds := { rendered.adds with }
    decides := ⟨fun none => { rendered.decides.silent none with }, rendered.decides.stray⟩
    finishes := fun c mem fresh => { rendered.finishes c mem fresh with } }

section Continuations

variable (inside : e.Inside t b) (apt : e.Apt) (renders : e.Renders recurse bound)
  (enough : t.unrendered e.procedure ≤ bound) (known : ∀ x ∈ e.procedure.succs b, e.Known t b x)

section
include inside renders enough

theorem Inside.loopBody_meets {cond : Var} (ending : e.procedure.ending b = some (.loop cond x y))
    (onward : ∀ z ∈ e.procedure.succs b, z ∈ [x, y]) (edge : x ∈ e.procedure.succs b) (fresh : x ∉ t.rendered)
    (known : e.Known t b x) :
    Ensures (loopBody recurse b x y) t fun _ t' => e.Reached b t t' [x] := by
  unfold Emitter.loopBody
  apply Meets.traversal
  refine Meets.ite (fun deferred => Meets.pure (inside.aside deferred)) fun free => ?_
  rw [if_neg (by simpa [Traversal.isRendered] using fresh)]
  have fits : e.Fits (t.openLoop y) x := by
    have fits := inside.fits edge fresh free known fun z edge ne => ?_
    · exact ⟨fits.ready.openLoop y, { fits.tidy with }, fits.hinted, fits.heeded⟩
    · rcases List.mem_cons.1 (onward z edge) with same | last
      · exact absurd same ne
      · exact .inr (.inr (.inr (List.mem_singleton.1 last ▸ ⟨cond, x, ending⟩)))
  apply Meets.update
  apply (renders _ x true fits enough).andThen
  intro lines t' done
  apply Meets.update
  exact Meets.pure ((done.closeLoop inside.within.sound).reached inside)

include apt

theorem Inside.loopExit_meets (edge : x ∈ e.procedure.succs b) (known : e.Known t b x)
    (jumps : ¬ e.procedure.Implicit b x) (others : ∀ y ∈ e.procedure.succs b, y ≠ x → e.Heeds t t.hints b y) :
    Ensures (e.loopExit recurse x) t fun _ t' => e.Reached b t t' [x] := by
  unfold Emitter.loopExit
  apply Meets.traversal
  refine Meets.ite (fun deferred => ?_) fun free => Meets.ite (fun rendered => ?_) fun fresh => ?_
  · exact Meets.ite (fun leaves => inside.leave_meets apt false edge leaves) fun _ => Meets.pure (inside.aside deferred)
  · have labelled := (known.rendered (of_decide_eq_true rendered)).2
    apply (inside.jump_meets false edge labelled (inside.announced known fun _ => jumps)).mono
    exact fun _ _ done => done.1
  · apply (renders t x false (inside.fits edge (of_decide_eq_false fresh) free known others) enough).mono
    exact fun _ _ done => done.reached inside

include known

theorem Inside.loop_meets {cond : Var} (ending : e.procedure.ending b = some (.loop cond x y))
    (listed : b ∈ e.procedure.blockIds) (fresh : x ∉ t.rendered) :
    Ensures (e.loop recurse b x y) t fun _ t' => e.Reached b t t' [x, y] := by
  obtain ⟨pass, assigned⟩ := apt.assigned
  have edges := apt.routed.targets b _ ending
  have onward : ∀ z ∈ e.procedure.succs b, z ∈ [x, y] := apt.routed.onward b _ ending rfl
  have edge : x ∈ e.procedure.succs b := edges x (by simp [Kind.targets])
  have edge' : y ∈ e.procedure.succs b := edges y (by simp [Kind.targets])
  have within := inside.within
  unfold Emitter.loop
  apply (inside.loopBody_meets renders enough ending onward edge fresh (known x edge)).andThen
  intro lines t' reached
  have known' : e.Known t' b y := by
    refine ⟨fun rendered => ?_, fun hint => (known y edge').hinted (reached.passes.hints.mem_iff.1 hint)⟩
    by_cases old : y ∈ t.rendered
    · exact ((known y edge').rendered old).imp
        (fun known => known.imp (fun early => reached.passes.printed early) id) id
    · -- The body rendered the exit.
      have inner : ¬ e.procedure.Visited b y := by
        intro visited
        rcases within.sound.visited within.rendered visited with early | aside
        · exact old early
        · rw [Traversal.isDeferred, ← reached.passes.frontier] at aside
          exact reached.inside.within.sound.not_mem_of_isDeferred aside rendered
      have entered := Procedure.Unannounced.entered (within.sound.reachable b within.rendered) ending inner
      by_cases same : y = x
      · subst same
        exact ⟨.inr (.inl (entered (.inl rfl))),
          apt.routed.label_of_repeats assigned listed ending (by simp [Kind.targets, repeats])⟩
      · have pred := reached.adds.exists_pred within.rendered rendered old (by simpa using same)
        exact ⟨.inr (.inl (entered (.inr pred))), apt.labelled_of_pred edge' (.inr pred)⟩
  have jumps := Procedure.not_implicit (x := y) ending rfl (by simp)
  have enough' := reached.passes.unrendered_le.trans enough
  apply (reached.inside.loopExit_meets apt renders enough' edge' known' jumps fun z edge ne => ?_).andThen
  · exact fun _ _ reached' => Meets.pure (reached.trans reached')
  · have first : z ∈ [x] := by simpa [ne] using onward z edge
    exact .inl (reached.knows z first)

theorem Inside.fallthroughTo_meets (edge : x ∈ e.procedure.succs b) (only : ∀ y ∈ e.procedure.succs b, y = x)
    (slot : Bool) : Ensures (e.fallthroughTo recurse b x slot) t fun _ t' => e.Reached b t t' [x] := by
  have known := known x edge
  have test : (if e.procedure.analysis.isFeedback b x then ofExcept (e.procedure.isLoopTest x) else pure false) =
      (pure (e.procedure.analysis.isFeedback b x && e.procedure.isTest x) : Emission Bool) := by
    rw [apt.routed.isLoopTest_eq]
    cases e.procedure.analysis.isFeedback b x <;> rfl
  unfold Emitter.fallthroughTo
  apply Meets.traversal
  rw [apt.facts]
  refine Meets.ite (fun deferred => ?_) fun free => ?_
  · exact Meets.ite (fun leaves => inside.leave_meets apt slot edge leaves) fun _ => Meets.pure (inside.aside deferred)
  rw [test, pure_bind]
  refine Meets.ite (fun back => ?_) fun onward => ?_
  · have returned := inside.returned ((Bool.and_eq_true _ _).mp back)
    apply (apt.headerLines_meets x).andThen
    rintro lines t' rfl
    refine Meets.ite (fun _ => Meets.pure returned) fun _ => Meets.ite (fun _ => ?_) fun _ => ?_
    all_goals exact Meets.pure returned
  have forth (returns : e.procedure.Returns b x) : ¬ e.procedure.Implicit b x := by
    simp [returns.1, returns.2] at onward
  by_cases rendered : x ∈ t.rendered
  · rw [if_neg (by simp [Traversal.isRendered, rendered])]
    apply (inside.jump_meets slot edge (known.rendered rendered).2 (inside.announced known forth)).mono
    exact fun _ _ done => done.1
  · by_cases single : e.procedure.inDegree x = 1
    · rw [if_pos (by simp [Traversal.isRendered, rendered, single])]
      have fits := inside.fits edge rendered free known fun y edge ne => absurd (only y edge) ne
      exact (renders t x slot fits enough).mono fun _ _ done => done.reached inside
    · rw [if_neg (by simp [single])]
      have listed := apt.routed.known b edge
      have pred := List.length_pos_of_mem ((apt.routed.preds x listed b).2 edge)
      have several : 1 < e.procedure.inDegree x := by
        unfold Procedure.inDegree at single ⊢
        omega
      obtain ⟨pass, assigned⟩ := apt.assigned
      have labelled := apt.routed.label_of_inDegree assigned listed several
      apply (inside.jump_meets slot edge labelled fun mem => absurd mem rendered).mono
      exact fun _ _ done => done.1

theorem Inside.fallthrough_meets (slot : Bool) (few : (e.procedure.succs b).length ≤ 1) :
    Ensures (e.fallthrough recurse b slot) t fun _ t' => e.Reached b t t' (e.procedure.succs b) := by
  unfold Emitter.fallthrough
  cases succs : e.procedure.succs b with
  | nil => exact Meets.pure (inside.refl (by simp))
  | cons x more =>
    cases more with
    | nil =>
      exact inside.fallthroughTo_meets apt renders enough known (by simp [succs]) (by simp [succs]) slot
    | cons =>
      rw [succs] at few
      simp at few

end

theorem Inside.noteJumps_meets (targets : List BlockId) (inside : e.Inside t b)
    (edges : ∀ x ∈ targets, x ∈ e.procedure.succs b) (labelled : ∀ x ∈ targets, e.IsLabelled x)
    (printed : ∀ x ∈ targets, x ∈ t.rendered → x ∈ t.printed ∨ e.procedure.Unannounced x) :
    Ensures (targets.forM noteJump) t fun _ t' => e.Reached b t t' targets := by
  induction targets generalizing t with
  | nil => exact Meets.pure (inside.refl (by simp))
  | cons x _ ih =>
    rw [List.forM]
    apply Meets.noteJump
    have reached := inside.jumpTo (edges x (.head _)) (labelled x (.head _)) (printed x (.head _))
    apply (ih reached.inside (fun y mem => edges y (.tail _ mem))
      (fun y mem => labelled y (.tail _ mem)) fun y mem => printed y (.tail _ mem)).mono
    exact fun _ _ reached' => reached.trans reached'

include inside apt renders enough known

theorem Inside.continuation_meets
    (unmet : ∀ x, e.procedure.Stray b x → x ∉ t.rendered ∧ x ∉ t.jumpTargets ∧ x ∉ t.hints)
    (unclaimed : deferred = none → ∀ x, e.procedure.analysis.idom? x = some b → t.isDeferred x = false)
    (below : ∀ x, x ≠ b → e.procedure.Dominates b x → x ∉ t.rendered)
    (listed : b ∈ e.procedure.blockIds) (slot : Bool) :
    Ensures (e.continuation recurse b slot deferred (e.procedure.ending b)) t fun result t' =>
      e.Branched b t t' (e.procedure.succs b) ∧ result.2 = deferred := by
  obtain ⟨pass, assigned⟩ := apt.assigned
  have routed := apt.routed
  -- Only a chain of tests has stray targets.
  have plainly {t' : Traversal} {kind : Kind} (ending : e.procedure.ending b = some kind)
      (branches : kind.isBranching = true) (single : ∀ arms, kind ≠ .multiway arms)
      (reached : e.Reached b t t' kind.targets) : e.Branched b t t' (e.procedure.succs b) := by
    refine ⟨reached.widen (routed.targets b kind ending) (routed.onward b kind ending branches), fun x stray => ?_⟩
    obtain ⟨arms, ending', -⟩ := stray.repeated
    exact absurd (Option.some.inj (ending.symm.trans ending')) (single arms)
  have falls (quiet : ∀ kind, e.procedure.ending b = some kind → kind.isBranching = false) :
      Ensures (do return (← e.fallthrough recurse b slot, deferred)) t fun result t' =>
        e.Branched b t t' (e.procedure.succs b) ∧ result.2 = deferred := by
    apply (inside.fallthrough_meets apt renders enough known slot (routed.falls b quiet)).andThen
    refine fun _ _ reached => Meets.pure ⟨⟨reached, fun x stray => ?_⟩, rfl⟩
    obtain ⟨arms, ending, -⟩ := stray.repeated
    simpa [Kind.isBranching] using quiet _ ending
  cases ending : e.procedure.ending b with
  | none => exact falls (by simp [ending])
  | some kind =>
    have edges := routed.targets b kind ending
    cases kind with
    | plain | init | virtual | label =>
      refine falls fun kind same => ?_
      obtain rfl := Option.some.inj (ending.symm.trans same)
      rfl
    | conditional =>
      apply (inside.conditional_meets apt renders enough ending listed known).andThen
      exact fun _ _ reached => Meets.pure ⟨plainly ending rfl (by simp) reached, rfl⟩
    | loop cond body exit =>
      obtain ⟨ne, dominates⟩ :=
        routed.loops b cond body exit ending (inside.within.sound.reachable b inside.within.rendered)
      apply (inside.loop_meets apt renders enough known ending listed (below body ne dominates)).andThen
      exact fun _ _ reached => Meets.pure ⟨plainly ending rfl (by simp) reached, rfl⟩
    | multiway =>
      apply (inside.multiway_meets apt renders enough ending listed known unmet).andThen
      exact fun _ _ branched => Meets.pure
        ⟨⟨branched.reached.widen edges (routed.onward b _ ending rfl), branched.stranded⟩, rfl⟩
    | switch selector arms =>
      have selects : e.Selects t b deferred (arms.map (·.target)) :=
        ⟨inside, edges, fun x mem rendered => .inr ⟨inside.announced (known x (edges x mem))
            (fun _ => Procedure.not_implicit ending rfl (by simp)) rendered,
            ((known x (edges x mem)).rendered rendered).2⟩,
          fun x mem => (known x (edges x mem)).hinted, unclaimed⟩
      unfold Emitter.continuation Emitter.switch
      apply (selects.switchArms_meets apt ⟨selector, arms, ending⟩ renders arms
        (routed.cases b selector arms ending) enough).andThen
      rintro ⟨lines, _⟩ t' ⟨reached, rfl⟩
      exact Meets.pure ⟨plainly ending rfl (by simp) reached, rfl⟩
    | jump targets =>
      obtain ⟨stmt, mem⟩ := Procedure.mem_kinds_of_ending ending
      apply (inside.noteJumps_meets targets edges (fun x target => ?_) fun x target => ?_).andThen
      · exact fun _ _ reached => Meets.pure ⟨plainly ending rfl (by simp) reached, rfl⟩
      · exact routed.label_of_isExplicitTarget assigned (routed.isExplicitTarget_of_jump assigned listed mem target)
      · exact inside.announced (known x (edges x target)) fun _ => Procedure.not_implicit ending rfl (by simp)

end Continuations

end Reflow.Emitter
