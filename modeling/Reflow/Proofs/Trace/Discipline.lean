import Reflow.Proofs.Trace.Growth

namespace Reflow

open Emission

namespace Traversal

variable {t t' t'' : Traversal} {b x join : BlockId}

def Apart (t : Traversal) : Prop :=
  ∀ entry ∈ t.frontier, entry.1 ∉ t.rendered

def Returns (t t' : Traversal) : Prop :=
  t'.frontier = t.frontier.filter (·.1 ∉ t'.rendered)

theorem Apart.empty : Apart {} := by
  simp [Apart]

theorem Apart.returns (apart : t.Apart) (frontier : t'.frontier = t.frontier) (rendered : t'.rendered = t.rendered) :
    t.Returns t' := by
  rw [Returns, frontier, rendered, eq_comm, List.filter_eq_self]
  intro entry mem
  simpa using apart entry mem

theorem Apart.arrived {hinted : List BlockId} (apart : t.Apart) : (Emission.arrived t hinted x).Apart := by
  rw [arrived_eq]
  exact apart

theorem Apart.hinted {hinted : List BlockId} (apart : t.Apart) : (hinted.foldl hint t).Apart := by
  rw [foldl_hint]
  exact apart

theorem Apart.undefer (apart : t.Apart) (join : BlockId) : (t.undefer join).Apart :=
  fun entry mem => apart entry (List.mem_filter.1 mem).1

theorem isDeferred_undefer (t : Traversal) (join : BlockId) : (t.undefer join).isDeferred join = false := by
  rw [Bool.eq_false_iff, ne_eq, isDeferred_iff]
  rintro ⟨depth, mem⟩
  simpa using (List.mem_filter.1 mem).2

theorem Returns.apart (returns : t.Returns t') : t'.Apart := by
  intro entry mem
  rw [returns] at mem
  simpa using (List.mem_filter.1 mem).2

theorem Returns.trans (first : t.Returns t') (second : t'.Returns t'') (grows : t'.Grows t'') : t.Returns t'' := by
  rw [Returns, second, first, List.filter_filter]
  apply List.filter_congr
  intro entry _
  by_cases mem : entry.1 ∈ t''.rendered
  · simp [mem]
  · have old : entry.1 ∉ t'.rendered := fun old => mem (grows.rendered old)
    simp [mem, old]

theorem Returns.mem_frontier (returns : t.Returns t') {entry : BlockId × Nat} (mem : entry ∈ t'.frontier) :
    entry ∈ t.frontier := by
  rw [returns] at mem
  exact (List.mem_filter.1 mem).1

theorem Returns.isDeferred (returns : t.Returns t') (aside : t'.isDeferred x = true) : t.isDeferred x = true := by
  obtain ⟨depth, mem⟩ := isDeferred_iff.1 aside
  exact isDeferred_iff.2 ⟨depth, returns.mem_frontier mem⟩

theorem Returns.rendered_or_isDeferred (returns : t.Returns t') (aside : t.isDeferred x = true) :
    x ∈ t'.rendered ∨ t'.isDeferred x = true := by
  by_cases rendered : x ∈ t'.rendered
  · exact .inl rendered
  · obtain ⟨depth, mem⟩ := isDeferred_iff.1 aside
    refine .inr (isDeferred_iff.2 ⟨depth, ?_⟩)
    rw [returns]
    exact List.mem_filter.2 ⟨mem, by simpa using rendered⟩

end Traversal

open Traversal

namespace Emitter

variable {e : Emitter} {task : Task} {t t' : Traversal} {b x join : BlockId} {lines : List Line}

def Takes (t : Traversal) (deferred deferred' : Option BlockId) : Prop :=
  deferred' = deferred ∨ ∃ join, deferred = none ∧ deferred' = some join ∧ t.isDeferred join = true

def Task.Settles : Task → Traversal → Traversal → Prop
  | .block b _, t, t' => t.isDeferred b = false → t.Apart → t.Returns t'
  | .edge .., t, t' | .arms .., t, t' => t.Apart → t.Returns t'
  | .cases _ deferred _ deferred', t, t' | .rest _ _ deferred _ deferred', t, t' =>
    t.Apart → t.Returns t' ∧ Takes t deferred deferred'
  | .join _ none, t, t' => t' = t
  | .join _ (some join), t, t' => t.Apart → (t.undefer join).Returns t' ∧ join ∈ t'.rendered

theorem setAside_eq_some (aside : e.setAside t b = some join) :
    e.facts.ipdom? b = some join ∧ join ∉ (t.render b).rendered ∧ t.isDeferred join = false := by
  rw [setAside, Option.filter_eq_some_iff] at aside
  obtain ⟨ipdom, free⟩ := aside
  rw [Bool.not_eq_true', Bool.or_eq_false_iff] at free
  exact ⟨ipdom, by simpa [isRendered] using free.1, free.2⟩

theorem frontier_started {needed : Bool} {stmts : List (Stmt × Kind)} :
    (e.started t b needed stmts).frontier = (e.setAside t b).toList.map (·, t.openExits.length) ++ t.frontier := by
  unfold started
  rw [printIf_frontier, printIf_frontier, begun]
  cases aside : e.setAside t b with
  | none => rfl
  | some join =>
    have free := (setAside_eq_some aside).2.2
    have frontier : ((t.render b).defer join).frontier =
        (join, t.openExits.length) :: t.frontier.filter (·.1 ≠ join) := rfl
    rw [Option.elim_some, frontier, filter_frontier free]
    rfl

theorem started_rendered {needed : Bool} {stmts : List (Stmt × Kind)} :
    (e.started t b needed stmts).rendered = (t.render b).rendered := by
  unfold started
  rw [printIf_rendered, printIf_rendered, begun_eq]

theorem apart_started {needed : Bool} {stmts : List (Stmt × Kind)} (free : t.isDeferred b = false)
    (apart : t.Apart) : (e.started t b needed stmts).Apart := by
  intro entry mem
  rw [started_rendered]
  rw [frontier_started] at mem
  rcases List.mem_append.1 mem with own | outer
  · obtain ⟨join, aside, rfl⟩ := List.mem_map.1 own
    exact (setAside_eq_some (Option.mem_toList.1 aside)).2.1
  · intro rendered
    rcases mem_addNew.1 rendered with same | old
    · rw [← same, Bool.eq_false_iff] at free
      exact free (isDeferred_iff.2 ⟨entry.2, outer⟩)
    · exact apart entry outer old

theorem returns_of_joined {started before after : Traversal} {aside deferred : Option BlockId} {depth : Nat}
    (frontier : started.frontier = aside.toList.map (·, depth) ++ t.frontier) (returns : started.Returns before)
    (takes : Takes started aside deferred) (grows : before.Grows after)
    (joined : ∀ join, deferred = some join → (before.undefer join).Returns after ∧ join ∈ after.rendered)
    (kept : deferred = none → after = before) : t.Returns after := by
  -- What is left is what was there behind the statements of the block, without what is rendered.
  have left : after.frontier = started.frontier.filter (·.1 ∉ after.rendered) := by
    cases deferred with
    | none =>
      rw [kept rfl]
      exact returns
    | some join =>
      obtain ⟨rest, rendered⟩ := joined join rfl
      rw [rest, undefer, returns, List.filter_filter, List.filter_filter]
      apply List.filter_congr
      intro entry _
      by_cases fresh : entry.1 ∈ after.rendered
      · simp [fresh]
      · have other : entry.1 ≠ join := fun same => fresh (same ▸ rendered)
        have outer : entry.1 ∉ before.rendered := fun old => fresh (grows.rendered old)
        simp [fresh, other, outer]
  have own : (aside.toList.map (·, depth)).filter (·.1 ∉ after.rendered) = [] := by
    rw [List.filter_eq_nil_iff]
    intro entry mem
    obtain ⟨join, listed, rfl⟩ := List.mem_map.1 mem
    rw [Option.mem_toList] at listed
    rcases takes with same | ⟨other, none, -, -⟩
    · simpa using (joined join (same.trans listed)).2
    · simp [listed] at none
  rw [Returns, left, frontier, List.filter_append, own, List.nil_append]

theorem Takes.before {t₀ : Traversal} {deferred deferred' : Option BlockId} (takes : Takes t deferred deferred')
    (earlier : ∀ join, t.isDeferred join = true → t₀.isDeferred join = true) : Takes t₀ deferred deferred' := by
  rcases takes with same | ⟨join, none, taken, aside⟩
  · exact .inl same
  · exact .inr ⟨join, none, taken, earlier join aside⟩

theorem Lays.settles (lays : e.Lays task t lines t') : task.Settles t t' := by
  induction lays with
  | @block _ _ _ _ _ _ _ _ _ _ join _ _ _ _ _ _ _ _ joins ihFollows ihJoins =>
      intro free apart
      obtain ⟨returns, takes⟩ := ihFollows (apart_started free apart)
      apply returns_of_joined frontier_started returns takes joins.grows
      · rintro join rfl
        exact ihJoins returns.apart
      · rintro rfl
        exact ihJoins
  | passed | joined | returned | armsDone => exact fun apart => apart.returns rfl rfl
  | jumped => exact fun apart => apart.returns rfl rfl
  | @entered t _ _ x way _ free _ ih =>
    intro apart
    have entered : (way.entered t).isDeferred x = false := by cases way <;> exact free
    have apart' : (way.entered t).Apart := by cases way <;> exact apart
    have returns := ih entered apart'
    cases way <;> exact returns
  | @arm _ _ _ _ _ _ _ _ _ _ _ _ later ihHere ihLater =>
    intro apart
    have returns := ihHere apart.arrived
    rw [arrived_eq] at returns
    exact Returns.trans returns (ihLater returns.apart) later.grows
  | @elided _ _ _ _ _ _ _ _ _ _ ih =>
    intro apart
    have returns := ih apart.arrived
    rwa [arrived_eq] at returns
  | casesDone => exact fun apart => ⟨apart.returns rfl rfl, .inl rfl⟩
  | case here later ihHere ihLater =>
    intro apart
    have returns := ihHere apart
    obtain ⟨returns', takes⟩ := ihLater returns.apart
    exact ⟨returns.trans returns' later.grows, takes.before fun _ => returns.isDeferred⟩
  | @claimed _ _ _ _ arm _ _ _ _ _ aside _ ih =>
    intro apart
    obtain ⟨returns, takes⟩ := ih apart
    refine ⟨returns, .inr ⟨arm.target, rfl, ?_, aside⟩⟩
    rcases takes with same | ⟨join, none, -, -⟩
    · exact same
    · simp at none
  | @conditional _ t' _ _ x _ _ _ _ _ _ _ second ihFirst ihSecond =>
    intro apart
    have returns := ihFirst apart.hinted
    have returns' := ihSecond returns.apart.arrived
    rw [foldl_hint] at returns
    rw [arrived_eq] at returns'
    exact ⟨Returns.trans returns returns' (Traversal.Grows.trans (t'.grows_arrived _ x) second.grows), .inl rfl⟩
  | loop _ outer ihInner ihOuter =>
    intro apart
    have returns := ihInner apart
    exact ⟨returns.trans (ihOuter returns.apart) outer.grows, .inl rfl⟩
  | multiway _ _ ih =>
    intro apart
    have returns := ih apart.hinted
    rw [foldl_hint] at returns
    exact ⟨returns, .inl rfl⟩
  | switch _ ih => exact ih
  | jumps =>
    intro apart
    rw [jumps_eq]
    exact ⟨apart.returns rfl rfl, .inl rfl⟩
  | ends => exact fun apart => ⟨apart.returns rfl rfl, .inl rfl⟩
  | falls _ _ _ ih => exact fun apart => ⟨ih apart, .inl rfl⟩
  | noJoin => rfl
  | @settled _ _ join rendered =>
    intro apart
    exact ⟨Apart.returns (Apart.undefer apart join) rfl rfl, rendered⟩
  | @followed t _ _ join _ _ inner ih =>
    intro apart
    exact ⟨ih (isDeferred_undefer t join) (Apart.undefer apart join), inner.mem_rendered⟩

end Emitter

end Reflow
