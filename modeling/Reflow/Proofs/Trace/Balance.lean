import Reflow.Proofs.Trace.Discipline

namespace Reflow.Emitter

open Emission Traversal

variable {e : Emitter} {task : Task} {t t' t'' : Traversal} {b x join : BlockId} {lines : List Line}
  {needed : Bool} {stmts : List (Stmt × Kind)} {own : Option BlockId}

theorem started_eq (e : Emitter) (t : Traversal) (b : BlockId) (needed : Bool) (stmts : List (Stmt × Kind)) :
    e.started t b needed stmts = { t with
      rendered := (e.started t b needed stmts).rendered
      frontier := (e.started t b needed stmts).frontier
      printed := (e.started t b needed stmts).printed } := by
  unfold started
  rw [printIf_eq, printIf_eq, begun_eq]
  rfl

theorem hintedAt_nodup (t : Traversal) (targets : List BlockId) : (hintedAt t targets).Nodup :=
  eraseDups_nodup _

theorem hintedAt_subset (t : Traversal) (targets : List BlockId) : hintedAt t targets ⊆ targets := by
  intro x mem
  rw [hintedAt, List.mem_eraseDups] at mem
  exact (List.mem_filter.1 mem).1

theorem hints_arrived {own others hinted : List BlockId} (perm : own.Perm hinted) (hints : t.hints = own ++ others) :
    (arrived t hinted x).hints = own.erase x ++ others := by
  unfold arrived
  split
  · rename_i mem
    rw [unhint, hints, List.erase_append_left _ (perm.mem_iff.2 mem)]
  · rename_i absent
    rw [hints, List.erase_of_not_mem fun mem => absent (perm.mem_iff.1 mem)]

def Task.Restores : Task → Traversal → Traversal → Prop
  | .arms _ _ hinted tests, t, t' => t'.openExits = t.openExits ∧ ∀ own others, own.Perm hinted → hinted.Nodup →
      hinted ⊆ tests.map (·.2) → t.hints = own ++ others → t'.hints = others
  | _, t, t' => t'.openExits = t.openExits ∧ t'.hints = t.hints

theorem arrived_openExits (t : Traversal) (hinted : List BlockId) (x : BlockId) :
    (arrived t hinted x).openExits = t.openExits := by
  rw [arrived_eq]

theorem erase_subset_of_cons {hinted targets : List BlockId} (nodup : hinted.Nodup) (among : hinted ⊆ x :: targets) :
    hinted.erase x ⊆ targets := by
  intro y mem
  obtain ⟨ne, listed⟩ := (nodup.mem_erase_iff).1 mem
  exact (List.mem_cons.1 (among listed)).resolve_left ne

theorem Lays.restores (lays : e.Lays task t lines t') : task.Restores t t' := by
  induction lays with
  | @block _ _ _ _ _ _ _ _ _ _ _ _ _ _ _ _ _ _ _ _ ihFollows ihJoins =>
      rw [started_eq] at ihFollows
      exact ⟨ihJoins.1.trans ihFollows.1, ihJoins.2.trans ihFollows.2⟩
  | passed | joined | jumped | returned | casesDone | ends | noJoin | settled => exact ⟨rfl, rfl⟩
  | @entered _ _ _ _ way _ _ _ ih =>
    obtain ⟨exits, hints⟩ := ih
    cases way with
    | body => exact ⟨by rw [Way.left, closeLoop, exits]; rfl, hints⟩
    | _ => exact ⟨exits, hints⟩
  | armsDone =>
    refine ⟨rfl, fun own others perm nodup among hints => ?_⟩
    obtain rfl := List.eq_nil_of_subset_nil among
    rw [hints, perm.eq_nil, List.nil_append]
  | @arm t _ _ _ x _ hinted _ _ _ _ _ _ ihHere ihLater =>
    obtain ⟨exits, hints⟩ := ihHere
    obtain ⟨exits', back⟩ := ihLater
    refine ⟨exits'.trans (exits.trans (arrived_openExits t hinted x)), fun own others perm nodup among own' => ?_⟩
    exact back (own.erase x) others (perm.erase x) (nodup.erase x) (erase_subset_of_cons nodup among)
      (hints.trans (hints_arrived perm own'))
  | @elided t _ _ x hinted _ _ _ _ _ ih =>
    obtain ⟨exits, back⟩ := ih
    refine ⟨exits.trans (arrived_openExits t hinted x), fun own others perm nodup among own' => ?_⟩
    exact back (own.erase x) others (perm.erase x) (nodup.erase x) (erase_subset_of_cons nodup among)
      (hints_arrived perm own')
  | case _ _ ihHere ihLater => exact ⟨ihLater.1.trans ihHere.1, ihLater.2.trans ihHere.2⟩
  | claimed _ _ _ _ _ ih => exact ih
  | @conditional t _ _ _ x _ _ _ _ _ _ _ _ ihFirst ihSecond =>
    obtain ⟨exits, hints⟩ := ihFirst
    obtain ⟨exits', hints'⟩ := ihSecond
    rw [foldl_hint] at exits hints
    have gone : (hintedAt t [x]).reverse.erase x = [] := by
      rw [hintedAt_singleton]
      split <;> simp
    rw [arrived_openExits] at exits'
    rw [hints_arrived (hintedAt t [x]).reverse_perm hints, gone] at hints'
    exact ⟨exits'.trans exits, hints'⟩
  | loop _ _ ihInner ihOuter => exact ⟨ihOuter.1.trans ihInner.1, ihOuter.2.trans ihInner.2⟩
  | @multiway t _ _ _ _ arms _ _ _ ih =>
    obtain ⟨exits, back⟩ := ih
    rw [foldl_hint] at exits back
    refine ⟨exits, back _ t.hints (hintedAt t _).reverse_perm (hintedAt_nodup t _) ?_ rfl⟩
    exact List.Subset.trans (hintedAt_subset t _) (List.map_subset _ (List.drop_subset 1 arms))
  | switch _ ih => exact ih
  | jumps => rw [jumps_eq]; exact ⟨rfl, rfl⟩
  | falls _ _ _ ih => exact ih
  | followed _ _ ih => exact ih

def Backed (e : Emitter) (t : Traversal) : Prop :=
  ∀ join ∈ t.claimed, ∃ b ∈ t.rendered, e.facts.idom? join = some b

structure Claims (e : Emitter) (own : Option BlockId) (t t' : Traversal) : Prop where
  claimed : t.claimed ⊆ t'.claimed
  inside : ∀ join ∈ t'.claimed, join ∉ t.claimed →
    join ∈ own ∨ ∃ b ∈ t'.rendered, b ∉ t.rendered ∧ e.facts.idom? join = some b
  taken : ∀ x, t.isDeferred x = true → x ∈ t'.rendered → x ∈ t'.claimed ∧ x ∉ t.claimed
  own : ∀ join ∈ own, join ∈ t'.claimed ∧ join ∉ t.claimed

theorem Claims.of_eq (apart : t.Apart) (claimed : t'.claimed = t.claimed) (rendered : t'.rendered = t.rendered) :
    e.Claims none t t' := by
  refine ⟨claimed ▸ .refl _, fun join mem new => absurd (claimed ▸ mem) new, ?_, by simp⟩
  intro x aside done
  obtain ⟨depth, mem⟩ := isDeferred_iff.1 aside
  exact absurd (rendered ▸ done) (apart _ mem)

theorem Claims.trans (first : e.Claims none t t') (second : e.Claims own t' t'')
    (returns : t.Returns t') (grows : t.Grows t') (grows' : t'.Grows t'') : e.Claims own t t'' where
  claimed := List.Subset.trans first.claimed second.claimed
  inside join mem new := by
    by_cases between : join ∈ t'.claimed
    · obtain ⟨b, rendered, fresh, idom⟩ := (first.inside join between new).resolve_left (by simp)
      exact .inr ⟨b, grows'.rendered rendered, fresh, idom⟩
    · rcases second.inside join mem between with own | ⟨b, rendered, fresh, idom⟩
      · exact .inl own
      · exact .inr ⟨b, rendered, fun old => fresh (grows.rendered old), idom⟩
  taken x aside rendered := by
    by_cases between : x ∈ t'.rendered
    · obtain ⟨claimed, new⟩ := first.taken x aside between
      exact ⟨second.claimed claimed, new⟩
    · obtain ⟨claimed, new⟩ := second.taken x ((returns.rendered_or_isDeferred aside).resolve_left between) rendered
      exact ⟨claimed, fun old => new (first.claimed old)⟩
  own join mem := by
    obtain ⟨claimed, new⟩ := second.own join mem
    exact ⟨claimed, fun old => new (first.claimed old)⟩

theorem Claims.backed (claims : e.Claims own t t') (backed : e.Backed t) (grows : t.Grows t')
    (owner : ∀ join ∈ own, ∃ b ∈ t'.rendered, e.facts.idom? join = some b) : e.Backed t' := by
  intro join mem
  by_cases old : join ∈ t.claimed
  · obtain ⟨b, rendered, idom⟩ := backed join old
    exact ⟨b, grows.rendered rendered, idom⟩
  · rcases claims.inside join mem old with own | ⟨b, rendered, -, idom⟩
    · exact owner join own
    · exact ⟨b, rendered, idom⟩

theorem Claims.not_owner (claims : e.Claims none t t') (rendered : b ∈ t.rendered)
    (unclaimed : ∀ join ∈ t.claimed, e.facts.idom? join ≠ some b) :
    ∀ join ∈ t'.claimed, e.facts.idom? join ≠ some b := by
  intro join mem
  by_cases old : join ∈ t.claimed
  · exact unclaimed join old
  · obtain ⟨c, -, fresh, idom⟩ := (claims.inside join mem old).resolve_left (by simp)
    rw [idom]
    rintro ⟨⟩
    exact fresh rendered

def Task.Claims (e : Emitter) : Task → Traversal → Traversal → Prop
  | .block b _, t, t' => t.isDeferred b = false → t.Apart → e.Backed t → e.Claims none t t'
  | .edge .., t, t' | .arms .., t, t' => t.Apart → e.Backed t → e.Claims none t t'
  | .cases b deferred _ deferred', t, t' | .rest b _ deferred _ deferred', t, t' =>
    t.Apart → e.Backed t → b ∈ t.rendered → (deferred = none → ∀ join ∈ t.claimed, e.facts.idom? join ≠ some b) →
      ∃ own, e.Claims own t t' ∧ (∀ join ∈ own, e.facts.idom? join = some b) ∧
        (own = none ∧ deferred' = deferred ∨ deferred = none ∧ deferred' = own)
  | .join _ none, t, t' => t' = t
  | .join _ (some join), t, t' => t.Apart → e.Backed t → e.Claims none (t.undefer join) t'

theorem isDeferred_started (aside : t.isDeferred x = true) :
    (e.started t b needed stmts).isDeferred x = true := by
  obtain ⟨depth, mem⟩ := isDeferred_iff.1 aside
  exact isDeferred_iff.2 ⟨depth, by rw [frontier_started]; exact List.mem_append_right _ mem⟩

theorem started_claimed :
    (e.started t b needed stmts).claimed = t.claimed := by
  rw [started_eq]

theorem Backed.started (backed : e.Backed t) :
    e.Backed (e.started t b needed stmts) := by
  intro join mem
  obtain ⟨c, rendered, idom⟩ := backed join (started_claimed ▸ mem)
  exact ⟨c, mem_started_rendered.2 (.inr rendered), idom⟩

theorem Backed.unclaimed_started (backed : e.Backed t)
    (fresh : b ∉ t.rendered) : ∀ join ∈ (e.started t b needed stmts).claimed, e.facts.idom? join ≠ some b := by
  intro join mem idom
  obtain ⟨c, rendered, idom'⟩ := backed join (started_claimed ▸ mem)
  rw [idom] at idom'
  exact fresh (Option.some.inj idom' ▸ rendered)

theorem claims_block {own deferred : Option BlockId}
    (claims : e.Claims own (e.started t b needed stmts) t') (owner : ∀ join ∈ own, e.facts.idom? join = some b)
    (split : own = none ∧ deferred = e.setAside t b ∨ e.setAside t b = none ∧ deferred = own)
    (returns : (e.started t b needed stmts).Returns t') (fresh : b ∉ t.rendered)
    (grows : (e.started t b needed stmts).Grows t') (grows' : t'.Grows t'') (kept : deferred = none → t'' = t')
    (joined : ∀ join, deferred = some join → e.Claims none (t'.undefer join) t'') : e.Claims none t t'' := by
  have later : t'.claimed ⊆ t''.claimed := by
    cases deferred with
    | none => exact kept rfl ▸ .refl _
    | some join => exact (joined join rfl).claimed
  have before : t.claimed ⊆ t'.claimed := started_claimed (e := e) (b := b) ▸ claims.claimed
  have older {c : BlockId} (old : c ∈ t.rendered) : c ∈ (e.started t b needed stmts).rendered :=
    mem_started_rendered.2 (.inr old)
  -- What the branches claim for the block itself becomes a claim of a block rendered here.
  refine ⟨List.Subset.trans before later, fun join mem new => .inr ?_, fun x aside rendered => ?_, by simp⟩
  · by_cases between : join ∈ t'.claimed
    · rcases claims.inside join between (started_claimed (t := t) ▸ new) with own | ⟨c, rendered, outside, idom⟩
      · exact ⟨b, grows'.rendered (grows.rendered (mem_started_rendered.2 (.inl rfl))), fresh, owner join own⟩
      · exact ⟨c, grows'.rendered rendered, fun old => outside (older old), idom⟩
    · cases deferred with
      | none => exact absurd (kept rfl ▸ mem) between
      | some last =>
        obtain ⟨c, rendered, outside, idom⟩ := ((joined last rfl).inside join mem between).resolve_left (by simp)
        exact ⟨c, rendered, fun old => outside (grows.rendered (older old)), idom⟩
  · have aside' : (e.started t b needed stmts).isDeferred x = true := isDeferred_started aside
    by_cases between : x ∈ t'.rendered
    · obtain ⟨claimed, new⟩ := claims.taken x aside' between
      exact ⟨later claimed, started_claimed (e := e) (b := b) ▸ new⟩
    · cases deferred with
      | none => exact absurd (kept rfl ▸ rendered) between
      | some join =>
        have waits := (returns.rendered_or_isDeferred aside').resolve_left between
        by_cases same : x = join
        · -- The block has not set the join aside itself, so it has claimed it.
          subst same
          rcases split with ⟨-, aside''⟩ | ⟨-, claimed⟩
          · rw [(setAside_eq_some aside''.symm).2.2] at aside
            simp at aside
          · obtain ⟨here, new⟩ := claims.own x claimed.symm
            exact ⟨later here, started_claimed (e := e) (b := b) ▸ new⟩
        · obtain ⟨claimed, new⟩ := (joined join rfl).taken x (isDeferred_undefer_of_ne waits same) rendered
          exact ⟨claimed, fun old => new (before old)⟩

theorem Lays.claims (lays : e.Lays task t lines t') : task.Claims e t t' := by
  induction lays with
  | @block t t' _ b _ needed stmts _ _ _ join _ _ fresh _ _ _ _ follows joins ihFollows ihJoins =>
      intro free apart backed
      have apart' : (e.started t b needed (upToLastReal stmts)).Apart := apart_started free apart
      have backed' : e.Backed (e.started t b needed (upToLastReal stmts)) := Backed.started backed
      have here : b ∈ (e.started t b needed (upToLastReal stmts)).rendered := mem_started_rendered.2 (.inl rfl)
      obtain ⟨own, claims, owner, split⟩ :=
        ihFollows apart' backed' here fun _ => Backed.unclaimed_started backed fresh
      have returns := (follows.settles apart').1
      have owned : ∀ join ∈ own, ∃ c ∈ t'.rendered, e.facts.idom? join = some c :=
        fun join mem => ⟨b, follows.grows.rendered here, owner join mem⟩
      apply claims_block claims owner split returns fresh follows.grows joins.grows
      · rintro rfl
        exact ihJoins
      · rintro join rfl
        exact ihJoins returns.apart (claims.backed backed' follows.grows owned)
  | passed | joined | returned | armsDone | jumped => exact fun apart _ => .of_eq apart rfl rfl
  | @entered t _ _ x way _ free _ ih =>
    intro apart backed
    have free' : (way.entered t).isDeferred x = false := by cases way <;> exact free
    have apart' : (way.entered t).Apart := by cases way <;> exact apart
    have backed' : e.Backed (way.entered t) := by cases way <;> exact backed
    obtain ⟨claimed, inside, taken, own⟩ := ih free' apart' backed'
    cases way <;> exact ⟨claimed, inside, taken, own⟩
  | @arm t t' _ _ x _ hinted _ _ _ _ here later ihHere ihLater =>
    intro apart backed
    have returns := here.settles apart.arrived
    have claims := ihHere apart.arrived (by rw [arrived_eq]; exact backed)
    have grows := (t.grows_arrived hinted x).trans here.grows
    rw [arrived_eq] at returns claims
    have claims : e.Claims none t t' := ⟨claims.claimed, claims.inside, claims.taken, claims.own⟩
    have claims' := ihLater returns.apart (claims.backed backed grows (by simp))
    exact claims.trans claims' returns grows later.grows
  | @elided _ _ _ _ _ _ _ _ _ _ ih =>
    intro apart backed
    have claims := ih apart.arrived (by rw [arrived_eq]; exact backed)
    rw [arrived_eq] at claims
    exact ⟨claims.claimed, claims.inside, claims.taken, claims.own⟩
  | casesDone => exact fun apart _ _ _ => ⟨none, .of_eq apart rfl rfl, by simp, .inl ⟨rfl, rfl⟩⟩
  | @case _ _ _ _ _ _ _ _ _ _ here later ihHere ihLater =>
    intro apart backed rendered unclaimed
    have returns := here.settles apart
    have claims := ihHere apart backed
    obtain ⟨own, claims', owner, split⟩ := ihLater returns.apart (claims.backed backed here.grows (by simp))
      (here.grows.rendered rendered) fun none => claims.not_owner rendered (unclaimed none)
    exact ⟨own, claims.trans claims' returns here.grows later.grows, owner, split⟩
  | @claimed t _ b _ arm _ _ _ _ idom _ _ ih =>
    intro apart backed rendered unclaimed
    have backed' : e.Backed (t.claim arm.target) := by
      intro join mem
      rcases mem_addNew.1 mem with rfl | old
      · exact ⟨b, rendered, idom⟩
      · exact backed join old
    obtain ⟨own, claims, -, split⟩ := ih apart backed' rendered (by simp)
    obtain ⟨rfl, same⟩ := split.resolve_right (by simp)
    have target : arm.target ∈ (t.claim arm.target).claimed := mem_addNew.2 (.inl rfl)
    refine ⟨some arm.target, ⟨?_, ?_, ?_, ?_⟩, ?_, .inr ⟨rfl, same⟩⟩
    · exact fun join old => claims.claimed (mem_addNew.2 (.inr old))
    · intro join mem new
      by_cases here : join = arm.target
      · exact .inl (by simp [here])
      · have new' : join ∉ (t.claim arm.target).claimed := fun old => (mem_addNew.1 old).elim here new
        exact .inr ((claims.inside join mem new').resolve_left (by simp))
    · intro x waits done
      obtain ⟨taken, new⟩ := claims.taken x waits done
      exact ⟨taken, fun old => new (mem_addNew.2 (.inr old))⟩
    · rintro join ⟨⟩
      exact ⟨claims.claimed target, fun old => unclaimed rfl _ old idom⟩
    · rintro join ⟨⟩
      exact idom
  | @conditional t t' t'' _ x _ _ _ _ _ _ first second ihFirst ihSecond =>
    intro apart backed _ _
    have returns := first.settles apart.hinted
    have apart' := returns.apart
    have claims := ihFirst apart.hinted (by rw [foldl_hint]; exact backed)
    have grows := (t.grows_hints (hintedAt t [x])).trans first.grows
    rw [foldl_hint] at returns claims
    have claims : e.Claims none t t' := ⟨claims.claimed, claims.inside, claims.taken, claims.own⟩
    have backed' := claims.backed backed grows (by simp)
    have claims' := ihSecond apart'.arrived (by rw [arrived_eq]; exact backed')
    rw [arrived_eq] at claims'
    have claims' : e.Claims none t' t'' := ⟨claims'.claimed, claims'.inside, claims'.taken, claims'.own⟩
    have grows' := (t'.grows_arrived (hintedAt t [x]) x).trans second.grows
    exact ⟨none, claims.trans claims' returns grows grows', by simp, .inl ⟨rfl, rfl⟩⟩
  | @loop _ _ _ _ _ _ _ _ _ _ _ inner outer ihInner ihOuter =>
    intro apart backed _ _
    have returns := inner.settles apart
    have claims := ihInner apart backed
    have claims' := ihOuter returns.apart (claims.backed backed inner.grows (by simp))
    exact ⟨none, claims.trans claims' returns inner.grows outer.grows, by simp, .inl ⟨rfl, rfl⟩⟩
  | @multiway _ _ _ _ _ _ _ _ _ ih =>
    intro apart backed _ _
    have claims := ih apart.hinted (by rw [foldl_hint]; exact backed)
    rw [foldl_hint] at claims
    exact ⟨none, ⟨claims.claimed, claims.inside, claims.taken, claims.own⟩, by simp, .inl ⟨rfl, rfl⟩⟩
  | switch _ ih => exact ih
  | jumps =>
    intro apart _ _ _
    rw [jumps_eq]
    exact ⟨none, .of_eq apart rfl rfl, by simp, .inl ⟨rfl, rfl⟩⟩
  | ends => exact fun apart _ _ _ => ⟨none, .of_eq apart rfl rfl, by simp, .inl ⟨rfl, rfl⟩⟩
  | falls _ _ _ ih => exact fun apart backed _ _ => ⟨none, ih apart backed, by simp, .inl ⟨rfl, rfl⟩⟩
  | noJoin => rfl
  | @settled _ _ join => exact fun apart _ => .of_eq (Apart.undefer apart join) rfl rfl
  | @followed t _ _ join _ _ _ ih =>
    exact fun apart backed => ih (isDeferred_undefer t join) (Apart.undefer apart join) backed

end Reflow.Emitter
