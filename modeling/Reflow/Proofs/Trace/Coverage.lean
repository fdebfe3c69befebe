import Reflow.Proofs.Trace.Discipline

namespace Reflow

open Emission

def Procedure.Linked (p : Procedure) : Prop :=
  ∀ b stmts kind, p.classified b = .ok stmts → Emitter.endOf stmts = some kind → kind.isBranching = true →
    ∀ x, x ∈ kind.targets ↔ x ∈ p.succs b

namespace Traversal

variable {t t' : Traversal} {x : BlockId}

theorem Returns.knows (returns : t.Returns t') (grows : t.Grows t') (knows : t.Knows x) : t'.Knows x := by
  rcases knows with rendered | jumped | aside
  · exact .inl (grows.rendered rendered)
  · exact .inr (.inl (grows.jumpTargets jumped))
  · rcases returns.rendered_or_isDeferred aside with rendered | aside
    · exact .inl rendered
    · exact .inr (.inr aside)

end Traversal

namespace Emitter

open Traversal

variable {e : Emitter} {task : Task} {t t' t'' : Traversal} {b x : BlockId} {lines : List Line}

def Minds (e : Emitter) (t : Traversal) (b x : BlockId) : Prop :=
  e.facts.isFeedback b x = true ∨ t.Knows x

def Serves (e : Emitter) (t t' : Traversal) : Prop :=
  ∀ c ∈ t'.rendered, c ∉ t.rendered → ∀ x ∈ e.procedure.succs c, e.Minds t' c x

def JoinKnown (e : Emitter) (t : Traversal) (b : BlockId) : Prop :=
  ∀ join, e.facts.ipdom? b = some join → join ∈ t.rendered ∨ t.isDeferred join = true

def onward (e : Emitter) (b : BlockId) : Option Kind → List BlockId
  | some kind => if kind.isBranching then kind.targets else e.procedure.succs b
  | none => e.procedure.succs b

theorem onward_eq {ending : Option Kind} (passes : PassesOn ending) : e.onward b ending = e.procedure.succs b := by
  cases ending with
  | none => rfl
  | some kind =>
    cases kind with
    | plain | init | virtual | label => rfl
    | _ => exact absurd passes id

theorem Serves.trans (first : e.Serves t t') (second : e.Serves t' t'')
    (knows : ∀ x, t'.Knows x → t''.Knows x) : e.Serves t t'' := by
  intro c rendered fresh x edge
  by_cases between : c ∈ t'.rendered
  · exact (first c between fresh x edge).imp id (knows x)
  · exact second c rendered between x edge

theorem Serves.of_rendered (same : t'.rendered = t.rendered) : e.Serves t t' := by
  intro c rendered fresh
  exact absurd (same ▸ rendered) fresh

theorem JoinKnown.after (known : e.JoinKnown t b) (returns : t.Returns t') (grows : t.Grows t') : e.JoinKnown t' b := by
  intro join ipdom
  rcases known join ipdom with rendered | aside
  · exact .inl (grows.rendered rendered)
  · exact returns.rendered_or_isDeferred aside

theorem joinKnown_started {needed : Bool} {stmts : List (Stmt × Kind)} :
    e.JoinKnown (e.started t b needed stmts) b := by
  intro join ipdom
  rw [started_rendered, isDeferred_iff, frontier_started]
  cases aside : e.setAside t b with
  | none =>
    rw [setAside, ipdom, Option.filter_eq_none_iff] at aside
    have either := aside join rfl
    rw [Bool.not_eq_true, Bool.not_eq_false', Bool.or_eq_true] at either
    rcases either with rendered | outer
    · exact .inl (isRendered_iff.1 rendered)
    · obtain ⟨depth, mem⟩ := isDeferred_iff.1 outer
      exact .inr ⟨depth, List.mem_append_right _ mem⟩
  | some own =>
    obtain rfl : join = own := by
      have same := (setAside_eq_some aside).1
      rw [ipdom] at same
      exact Option.some.inj same
    exact .inr ⟨t.openExits.length, by simp⟩

def Task.Covers (e : Emitter) : Task → Traversal → Traversal → Prop
  | .block b _, t, t' => t.isDeferred b = false → t.Apart → e.Serves t t'
  | .edge b x _, t, t' => t.Apart → e.JoinKnown t b → e.Serves t t' ∧ e.Minds t' b x
  | .arms b _ _ tests, t, t' => t.Apart → e.JoinKnown t b → e.Serves t t' ∧ ∀ x ∈ tests.map (·.2), e.Minds t' b x
  | .cases b _ choices _, t, t' => t.Apart → e.JoinKnown t b →
      e.Serves t t' ∧ ∀ x ∈ choices.map (·.target), e.Minds t' b x
  | .rest b _ _ ending _, t, t' => t.Apart → e.JoinKnown t b → e.Serves t t' ∧ ∀ x ∈ e.onward b ending, e.Minds t' b x
  | .join .., t, t' => t.Apart → e.Serves t t'

theorem Lays.knows_join {deferred : Option BlockId} (lays : e.Lays (.join b deferred) t lines t') (apart : t.Apart)
    (knows : t.Knows x) : t'.Knows x := by
  have settles := lays.settles
  cases deferred with
  | none =>
    obtain rfl : t' = t := settles
    exact knows
  | some join =>
    obtain ⟨returns, rendered⟩ := settles apart
    by_cases same : x = join
    · exact .inl (same ▸ rendered)
    · have grows := lays.grows
      apply returns.knows ⟨grows.rendered, grows.printed, grows.jumpTargets⟩
      exact knows.undefer same

theorem serves_both (targets more : List BlockId) (first : e.Serves t t' ∧ ∀ x ∈ targets, e.Minds t' b x)
    (second : e.Serves t' t'' ∧ ∀ x ∈ more, e.Minds t'' b x) (knows : ∀ x, t'.Knows x → t''.Knows x) :
    e.Serves t t'' ∧ ∀ x ∈ targets ++ more, e.Minds t'' b x := by
  refine ⟨first.1.trans second.1 knows, fun x mem => ?_⟩
  rcases List.mem_append.1 mem with mem | mem
  · exact (first.2 x mem).imp id (knows x)
  · exact second.2 x mem

theorem Lays.covers (linked : e.procedure.Linked) (lays : e.Lays task t lines t') : task.Covers e t t' := by
  induction lays with
  | @block t t' t'' b braced needed stmts label body rest join deferred listed fresh ok decided labelled
      printed follows joins ihFollows ihJoins =>
      intro free apart
      have apart' : (e.started t b needed (upToLastReal stmts)).Apart := apart_started free apart
      obtain ⟨serves, minds⟩ := ihFollows apart' joinKnown_started
      have returns := (follows.settles apart').1
      have knows (x : BlockId) (known : t'.Knows x) : t''.Knows x := joins.knows_join returns.apart known
      have later := serves.trans (ihJoins returns.apart) knows
      intro c rendered old x edge
      by_cases here : c ∈ (e.started t b needed (upToLastReal stmts)).rendered
      · -- The block itself goes on where its last statement sends control.
        obtain rfl := (mem_started_rendered.1 here).resolve_right old
        refine (minds x ?_).imp id (knows x)
        cases ending : endOf stmts with
        | none => exact edge
        | some kind =>
          rw [onward]
          split
          · rename_i branches
            exact (linked c stmts kind ok ending branches x).2 edge
          · exact edge
      · exact later c rendered here x edge
  | passed aside => exact fun apart _ => ⟨.of_rendered rfl, .inr (.inr (.inr aside))⟩
  | joined ipdom =>
    intro apart known
    exact ⟨.of_rendered rfl, .inr ((known _ ipdom).imp id .inr)⟩
  | jumped => exact fun apart _ => ⟨.of_rendered rfl, .inr (.inr (.inl (mem_addNew.2 (.inl rfl))))⟩
  | returned may feedback => exact fun apart _ => ⟨.of_rendered rfl, .inl feedback⟩
  | @entered t t' _ x way _ free inner ih =>
    intro apart known
    have entered : (way.entered t).isDeferred x = false := by cases way <;> exact free
    have apart' : (way.entered t).Apart := by cases way <;> exact apart
    have serves : e.Serves t (way.left t') := by
      have inside := ih entered apart'
      cases way <;> exact inside
    have rendered : x ∈ (way.left t').rendered := by
      have inside := inner.mem_rendered
      cases way <;> exact inside
    exact ⟨serves, .inr (.inl rendered)⟩
  | armsDone => exact fun apart _ => ⟨.of_rendered rfl, by simp⟩
  | @arm t _ _ _ x first hinted _ arms _ _ here later ihHere ihLater =>
    intro apart known
    have settled := here.settles apart.arrived
    have first := ihHere apart.arrived (by rw [arrived_eq]; exact known)
    rw [arrived_eq] at settled first
    have grows := (t.grows_arrived hinted x).trans here.grows
    have second := ihLater settled.apart (known.after settled grows)
    exact serves_both [x] (arms.map (·.2)) ⟨first.1, by simpa using first.2⟩ second
      fun _ => (later.settles settled.apart).knows later.grows
  | @elided _ _ _ _ _ _ _ _ aside later ih =>
    intro apart known
    have settled := later.settles apart.arrived
    have rest := ih apart.arrived (by rw [arrived_eq]; exact known)
    have here := settled.knows later.grows (.inr (.inr aside))
    rw [arrived_eq] at rest
    exact ⟨rest.1, List.forall_mem_cons.2 ⟨.inr here, rest.2⟩⟩
  | casesDone => exact fun apart _ => ⟨.of_rendered rfl, by simp⟩
  | @case _ _ _ _ _ _ arm arms _ _ here later ihHere ihLater =>
    intro apart known
    have settled := here.settles apart
    have first := ihHere apart known
    have second := ihLater settled.apart (known.after settled here.grows)
    exact serves_both [arm.target] (arms.map (·.target)) ⟨first.1, by simpa using first.2⟩ second
      fun _ => (later.settles settled.apart).1.knows later.grows
  | @claimed _ _ _ _ _ _ _ _ _ _ aside later ih =>
    intro apart known
    have settled := (later.settles apart).1
    have rest := ih apart known
    have here := settled.knows later.grows (.inr (.inr aside))
    exact ⟨rest.1, List.forall_mem_cons.2 ⟨.inr here, rest.2⟩⟩
  | @conditional t t' _ _ x y _ _ _ _ _ first second ihFirst ihSecond =>
    intro apart known
    have settled := first.settles apart.hinted
    have apart' := settled.apart
    have then_ := ihFirst apart.hinted (by rw [foldl_hint]; exact known)
    rw [foldl_hint] at settled then_
    have grows := (t.grows_hints (hintedAt t [x])).trans first.grows
    have known' := known.after settled grows
    have settled' := second.settles apart'.arrived
    have else_ := ihSecond apart'.arrived (by rw [arrived_eq]; exact known')
    rw [arrived_eq] at settled' else_
    have grows' := (t'.grows_arrived (hintedAt t [x]) x).trans second.grows
    exact serves_both [y] [x] ⟨then_.1, by simpa using then_.2⟩ ⟨else_.1, by simpa using else_.2⟩
      fun _ => Returns.knows settled' grows'
  | @loop _ _ _ _ body exit _ _ _ _ _ inner outer ihInner ihOuter =>
    intro apart known
    have settled := inner.settles apart
    have first := ihInner apart known
    have second := ihOuter settled.apart (known.after settled inner.grows)
    exact serves_both [body] [exit] ⟨first.1, by simpa using first.2⟩
      ⟨second.1, by simpa using second.2⟩ fun _ => (outer.settles settled.apart).knows outer.grows
  | multiway _ _ ih =>
    intro apart known
    have rest := ih apart.hinted (by rw [foldl_hint]; exact known)
    rw [foldl_hint] at rest
    exact rest
  | switch _ ih => exact ih
  | jumps =>
    intro apart known
    exact ⟨.of_rendered (by rw [jumps_eq]), fun x mem => .inr (.inr (.inl (mem_jumps.2 (.inl mem))))⟩
  | ends passes last =>
    intro apart known
    exact ⟨.of_rendered rfl, by simp [onward_eq passes, last]⟩
  | falls passes next _ ih =>
    intro apart known
    have rest := ih apart known
    exact ⟨rest.1, by simpa [onward_eq passes, next] using rest.2⟩
  | noJoin => exact fun apart => .of_rendered rfl
  | settled => exact fun apart => .of_rendered rfl
  | @followed t _ _ join _ _ _ ih =>
    exact fun apart => ih (isDeferred_undefer t join) (Apart.undefer apart join)

structure Between (e : Emitter) (t : Traversal) : Prop where
  frontier : t.frontier = []
  serves : e.Serves {} t

theorem Between.after (linked : e.procedure.Linked) (between : e.Between t)
    (lays : e.Lays (.block b false) t lines t') : e.Between t' := by
  have free : t.isDeferred b = false := by simp [Traversal.isDeferred, between.frontier]
  have apart : t.Apart := by simp [Apart, between.frontier]
  have returns := lays.settles free apart
  refine ⟨?_, between.serves.trans (lays.covers linked free apart) fun _ => returns.knows lays.grows⟩
  rw [returns, between.frontier, List.filter_nil]

theorem Drains.between (linked : e.procedure.Linked) (drains : e.Drains t lines t') (between : e.Between t) :
    e.Between t' ∧ t.Grows t' ∧ t'.jumpTargets ⊆ t'.rendered := by
  induction drains with
  | done none => exact ⟨between, .refl _, subset_of_nextPending? none⟩
  | next _ here _ ih =>
    obtain ⟨last, grows, done⟩ := ih (between.after linked here)
    exact ⟨last, here.grows.trans grows, done⟩

theorem Writes.mem_rendered (writes : e.Writes lines t) (linked : e.procedure.Linked)
    (facts : e.facts = e.procedure.analysis.toFacts) (reach : e.procedure.Reachable b) : b ∈ t.rendered := by
  cases writes with
  | whole entry pending =>
    have start : e.Between {} := ⟨rfl, .of_rendered rfl⟩
    obtain ⟨last, grows, done⟩ := pending.between linked (start.after linked entry)
    apply reach.forward
    · exact grows.rendered entry.mem_rendered
    · intro a x rendered edge forward
      rcases last.serves a rendered (by simp) x edge with feedback | rendered | jumped | aside
      · rw [facts, forward] at feedback
        simp at feedback
      · exact rendered
      · exact done jumped
      · simp [Traversal.isDeferred, last.frontier] at aside

end Emitter

end Reflow
