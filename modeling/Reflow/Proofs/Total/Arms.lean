import Reflow.Proofs.Total.States

namespace Reflow.Emitter

open Emission

variable {e : Emitter} {recurse : Recurse} {bound : Nat} {t t' t'' : Traversal} {b x y : BlockId}
  {hinted outer via targets : List BlockId}

/-! ## Hints -/

theorem Inside.withHints (inside : e.Inside t b) {hints : List BlockId}
    (listed : ∀ x ∈ hints, ∃ c ∈ t.rendered, x ∈ e.procedure.succs c) (tracks : e.Tracks t b hints) :
    e.Inside { t with hints := hints } b where
  within := ⟨{ inside.within.sound with hinted := listed }, inside.within.rendered, inside.within.guard⟩
  tidy := { inside.tidy with }
  tracks := tracks
  outer := inside.outer

theorem Reached.withHints (reached : e.Reached b t t' via) {hints hints' : List BlockId}
    (same : hints'.Perm hints) (subset : hints ⊆ t.hints) (tracks : e.Tracks t' b hints) :
    e.Reached b { t with hints := hints } { t' with hints := hints' } via where
  inside := by
    apply reached.inside.withHints
    · intro x mem
      apply reached.inside.within.sound.hinted x
      exact reached.passes.hints.mem_iff.2 (subset (same.mem_iff.1 mem))
    · exact tracks.mono same.symm.subset
  passes := { reached.passes with hints := same }
  adds := ⟨reached.adds.origin, reached.adds.jumped, fun c mem fresh wanted =>
    reached.adds.printed c mem fresh (wanted.imp (fun hint => subset hint) id)⟩
  knows := reached.knows
  finishes c mem fresh :=
    have finished := reached.finishes c mem fresh
    ⟨finished.known, finished.stranded⟩

/-- How far a stray block has come: it is not reached yet and the arms to come name it twice, or it is rendered without
its label and one of them jumps to it, if none has. -/
def Drifts (t : Traversal) (outer targets : List BlockId) (x : BlockId) : Prop :=
  (x ∉ t.rendered ∧ x ∉ t.jumpTargets ∧ x ∉ outer ∧ x ∈ repeats targets) ∨
    (x ∈ t.rendered ∧ x ∉ t.printed ∧ (x ∈ targets ∨ x ∈ t.jumpTargets))

/-- The targets of the arms of a branch to come. Those of the later arms are hinted, jumped to or set aside; the one of
the next arm may be none of these. -/
structure Awaits (e : Emitter) (t : Traversal) (b : BlockId) (hinted outer targets : List BlockId) :
    Prop where
  inside : e.Inside t b
  hints : t.hints.Perm (hinted ++ outer)
  nodup : hinted.Nodup
  subset : hinted ⊆ targets
  edges : ∀ x ∈ targets, x ∈ e.procedure.succs b
  listed : ∀ x ∈ e.procedure.succs b, x ∈ hinted ∨ e.Deals t b x ∨ targets.head? = some x
  tracks : e.Tracks t b outer
  rendered : ∀ x ∈ targets, x ∈ t.rendered →
    (x ∈ t.printed ∨ e.procedure.Unannounced x ∨ e.procedure.Returns b x) ∧ e.IsLabelled x
  outside : ∀ x ∈ targets, x ∈ outer → e.IsLabelled x
  drifts : ∀ x, e.procedure.Stray b x → Drifts t outer targets x

theorem Awaits.hints_arrived (awaits : e.Awaits t b hinted outer targets) :
    (arrived t hinted x).hints.Perm (hinted.erase x ++ outer) := by
  unfold arrived
  split
  · rename_i mem
    have perm := awaits.hints.erase x
    rw [List.erase_append_left _ mem] at perm
    exact perm
  · rename_i absent
    rw [List.erase_of_not_mem absent]
    exact awaits.hints

section

variable (awaits : e.Awaits t b hinted outer (x :: targets))
include awaits

theorem Awaits.arrive :
    e.Awaits (arrived t hinted x) b (hinted.erase x) outer (x :: targets) ∧ hinted.erase x ⊆ targets := by
  have hints := awaits.hints_arrived (x := x)
  have later : hinted.erase x ⊆ targets := by
    intro y mem
    obtain ⟨ne, mem⟩ := awaits.nodup.mem_erase_iff.1 mem
    exact (List.mem_cons.1 (awaits.subset mem)).resolve_left ne
  rw [arrived_eq] at hints ⊢
  refine ⟨⟨?_, hints, awaits.nodup.erase x, List.subset_cons_of_subset x later, awaits.edges, ?_,
    awaits.tracks, awaits.rendered, awaits.outside, awaits.drifts⟩, later⟩
  · apply awaits.inside.withHints
    · intro y mem
      apply awaits.inside.within.sound.hinted y
      apply awaits.hints.mem_iff.2
      have listed := hints.mem_iff.1 mem
      rw [List.mem_append] at listed ⊢
      exact listed.imp List.mem_of_mem_erase id
    · exact awaits.tracks.mono fun y mem => hints.mem_iff.2 (List.mem_append_right _ mem)
  · intro y edge
    by_cases same : y = x
    · exact .inr (.inr (by simp [same]))
    · exact (awaits.listed y edge).imp (fun hint => awaits.nodup.mem_erase_iff.2 ⟨same, hint⟩) id

theorem Awaits.known (subset : hinted ⊆ targets) (twice : x ∈ targets → e.IsLabelled x) : e.Known t b x where
  rendered := awaits.rendered x (.head _)
  hinted := by
    intro mem
    rcases List.mem_append.1 (awaits.hints.mem_iff.1 mem) with hint | outside
    · exact twice (subset hint)
    · exact awaits.outside x (.head _) outside

theorem Awaits.heeds (edge : y ∈ e.procedure.succs b) (ne : y ≠ x) : e.Heeds t t.hints b y := by
  rcases awaits.listed y edge with hint | deals | next
  · exact .inr (.inl (awaits.hints.mem_iff.2 (List.mem_append_left _ hint)))
  · exact .inl deals
  · exact absurd (Option.some.inj next).symm ne

end

theorem Inside.announced_again (inside : e.Inside t b) (apt : e.Apt) (edge : x ∈ e.procedure.succs b)
    (again : e.procedure.Repeats b x) (unknown : ¬ t.Knows x) (decides : e.Decides t x (x ∈ t'.printed)) :
    x ∈ t'.printed ∨ e.procedure.Unannounced x := by
  have sound := inside.within.sound
  have reach := sound.reachable b inside.within.rendered
  have unaside {c : BlockId} (rendered : c ∈ t.rendered) : ¬ e.procedure.Visited c x := by
    intro visited
    rcases sound.visited rendered visited with done | aside
    · exact unknown (.inl done)
    · exact unknown (.inr (.inr aside))
  have passing {c : BlockId} (rendered : c ∈ t.rendered) : e.procedure.analysis.ipdom? c ≠ some x :=
    fun ipdom => unaside rendered (.inr ⟨c, .refl c, ipdom⟩)
  by_cases printed : x ∈ t'.printed
  · exact .inl printed
  · right
    have none : decide (x ∈ t'.printed) = false := decide_eq_false printed
    by_cases test : e.procedure.isTest x = true
    · exact .repeated reach again test
    · have silent := decides.silent none
      by_cases alone : e.procedure.inDegree x ≤ 1
      · exact .stray ⟨reach, again, alone, silent.quiet.unlabelled, silent.quiet.unnamed,
          passing inside.within.rendered⟩
      · rcases apt.routed.exists_pred_ne edge (Nat.lt_of_not_le alone) with entry | ⟨c, ne, second⟩
        · -- The entry dominates every block that is rendered.
          exact absurd (.inl (entry ▸ Digraph.Dominates.root_dominates b)) (unaside inside.within.rendered)
        · obtain ⟨pred, joins⟩ := silent.entered.resolve_left alone c second
          have rendered := pred.resolve_right fun returns => test returns.2
          rcases inside.tracks c rendered ne x second with (known | returns) | hint | switches | exits
          · exact absurd known unknown
          · exact absurd returns.2 test
          · exact absurd (.inl hint) silent.unlisted
          · exact absurd (joins switches) (passing rendered)
          · obtain ⟨cond, body, ending⟩ := exits
            exact .entered (sound.reachable c rendered) ending (unaside rendered) (.inr ⟨b, ne.symm, edge⟩)

section

variable (awaits : e.Awaits t b hinted outer (x :: targets)) (apt : e.Apt) (reached : e.Reached b t t' [x])
  (lands : e.Lands t t' x)
include awaits apt reached lands

theorem Awaits.drifts_after (absent : x ∈ hinted → ∀ arms, e.procedure.ending b ≠ some (.multiway arms))
    (stray : e.procedure.Stray b y) : Drifts t' outer targets y := by
  have within := awaits.inside.within
  have unled {d : BlockId} (new : d ∉ t.rendered) (leads : e.procedure.Leads d y) : False :=
    new (stray.eq_of_leads apt.routed leads ▸ within.rendered)
  rcases awaits.drifts y stray with ⟨fresh, unjumped, outside, twice⟩ | ⟨rendered, unprinted, later⟩
  · by_cases same : y = x
    · subst same
      have again : y ∈ targets := by
        rcases mem_repeats_cons.1 twice with ⟨-, again⟩ | later
        · exact again
        · exact mem_of_mem_repeats later
      have free : t.isDeferred y = false := by
        rw [Bool.eq_false_iff]
        exact fun aside => stray.passing (within.ipdom?_of_deferred (stray.edge apt.routed) aside)
      have unhinted : y ∉ t.hints := by
        intro hint
        rcases List.mem_append.1 (awaits.hints.mem_iff.1 hint) with inner | outer
        · obtain ⟨arms, ending, -⟩ := stray.repeated
          exact absent inner arms ending
        · exact outside outer
      obtain ⟨entered, decides⟩ := lands.entered fresh free
      exact .inr ⟨entered, of_decide_eq_false (decides.stray b stray unjumped unhinted), .inl again⟩
    · have other : y ∉ [x] := by simpa using same
      refine .inl ⟨fun new => ?_, fun new => ?_, outside, ?_⟩
      · rcases reached.adds.origin y new fresh with named | ⟨d, -, late, leads⟩
        · exact other named
        · exact unled late leads
      · rcases reached.adds.jumped y new unjumped with named | ⟨d, -, late, leads⟩
        · exact other named
        · exact unled late leads
      · exact (mem_repeats_cons.1 twice).resolve_left fun named => same named.1
  · refine .inr ⟨reached.passes.rendered rendered,
      fun printed => unprinted (reached.passes.late y rendered printed), ?_⟩
    rcases later with named | jumped
    · rcases List.mem_cons.1 named with rfl | later
      · exact .inr (lands.jumped rendered)
      · exact .inl later
    · exact .inr (reached.passes.jumpTargets jumped)

theorem Awaits.after (subset : hinted ⊆ targets) (twice : x ∈ targets → e.IsLabelled x)
    (repeated : x ∈ targets → x ∉ hinted → ¬ t.Knows x → e.procedure.Repeats b x)
    (absent : x ∈ hinted → ∀ arms, e.procedure.ending b ≠ some (.multiway arms)) :
    e.Awaits t' b hinted outer targets where
  inside := reached.inside
  hints := reached.passes.hints.trans awaits.hints
  nodup := awaits.nodup
  subset := subset
  edges y mem := awaits.edges y (.tail _ mem)
  listed y edge := by
    rcases awaits.listed y edge with hint | deals | next
    · exact .inl hint
    · exact .inr (.inl (deals.mono fun _ => reached.passes.knows))
    · obtain rfl := Option.some.inj next
      exact .inr (.inl (reached.knows x (.head _)))
  tracks := awaits.tracks.after reached.finishes fun _ => reached.passes.knows
  rendered := by
    intro y mem rendered
    have edge := awaits.edges y (.tail _ mem)
    by_cases old : y ∈ t.rendered
    · obtain ⟨printed, labelled⟩ := awaits.rendered y (.tail _ mem) old
      exact ⟨printed.imp (fun early => reached.passes.printed early) id, labelled⟩
    · have free : t.isDeferred y = false := by
        rw [Bool.eq_false_iff]
        intro aside
        rw [Traversal.isDeferred, ← reached.passes.frontier] at aside
        exact reached.inside.within.sound.not_mem_of_isDeferred aside rendered
      constructor
      · by_cases hint : y ∈ hinted
        · have listed : y ∈ t.hints := awaits.hints.mem_iff.2 (List.mem_append_left _ hint)
          exact .inl (reached.adds.printed y rendered old (.inl listed))
        · by_cases jumped : y ∈ t.jumpTargets
          · exact .inl (reached.adds.printed y rendered old (.inr jumped))
          · have unknown : ¬ t.Knows y := by simp [Traversal.Knows, old, jumped, free]
            rcases awaits.listed y edge with inner | (known | returns) | next
            · exact absurd inner hint
            · exact absurd known unknown
            · exact .inr (.inr returns)
            · obtain rfl := Option.some.inj next
              exact (awaits.inside.announced_again apt edge (repeated mem hint unknown) unknown
                (lands.entered old free).2).imp id .inl
      · by_cases same : y = x
        · exact same ▸ twice (same ▸ mem)
        · apply apt.labelled_of_pred edge
          exact .inr (reached.adds.exists_pred awaits.inside.within.rendered rendered old (by simpa using same))
  outside y mem := awaits.outside y (.tail _ mem)
  drifts y := awaits.drifts_after apt reached lands absent

end

theorem Inside.awaits (inside : e.Inside t b) {hints : List BlockId} (perm : hints.Perm (hinted ++ t.hints))
    (nodup : hinted.Nodup) (subset : hinted ⊆ targets) (edges : ∀ x ∈ targets, x ∈ e.procedure.succs b)
    (listed : ∀ x ∈ e.procedure.succs b, x ∈ hinted ∨ t.Knows x ∨ targets.head? = some x)
    (known : ∀ x ∈ targets, e.Known t b x) (drifts : ∀ x, e.procedure.Stray b x → Drifts t t.hints targets x) :
    e.Awaits { t with hints := hints } b hinted t.hints targets where
  inside := by
    apply inside.withHints
    · intro x mem
      rcases List.mem_append.1 (perm.mem_iff.1 mem) with hint | old
      · exact ⟨b, inside.within.rendered, edges x (subset hint)⟩
      · exact inside.within.sound.hinted x old
    · exact inside.tracks.mono fun x mem => perm.mem_iff.2 (List.mem_append_right _ mem)
  hints := perm
  nodup := nodup
  subset := subset
  edges := edges
  listed x edge := (listed x edge).imp id fun either => either.imp .inl id
  tracks := inside.tracks
  rendered x mem := (known x mem).rendered
  outside x mem := (known x mem).hinted
  drifts := drifts

/-! ## Conditionals -/

theorem Apt.headerLines_meets (apt : e.Apt) (x : BlockId) : Ensures (e.headerLines x) t fun _ t' => t' = t := by
  have stmts (kinds : List (Stmt × Kind)) (given : ∀ stmt ∈ kinds, stmt ∈ e.procedure.kinds x ∧ stmt.2 ≠ .virtual) :
      Ensures (kinds.mapM fun stmt => do
        return Line.stmt x stmt.1.id ((← e.renderStmt x stmt.1) ++ "\n")) t fun _ t' => t' = t := by
    induction kinds with
    | nil => exact Meets.pure rfl
    | cons stmt _ ih =>
      obtain ⟨mem, real⟩ := given stmt (.head _)
      obtain ⟨text, rendered⟩ := apt.text x stmt mem real
      rw [List.mapM_cons, bind_assoc]
      apply Meets.of_ok rendered
      apply (ih fun stmt mem => given stmt (.tail _ mem)).andThen
      exact fun _ _ same => Meets.pure same
  unfold Emitter.headerLines
  apply Meets.of_ok (apt.routed.classified x)
  apply (stmts _ fun stmt mem => ?_).andThen
  · exact fun _ _ same => Meets.pure same
  · obtain ⟨mem, real⟩ := List.mem_filter.1 mem
    simp only [Bool.and_eq_true, bne_iff_ne] at real
    exact ⟨upToLastReal_subset _ (List.mem_of_mem_dropLast mem), real.1⟩

theorem Inside.returned (inside : e.Inside t b) (returns : e.procedure.Returns b x) : e.Reached b t t [x] :=
  inside.refl fun _ mem => .inr (List.mem_singleton.1 mem ▸ returns)

theorem Inside.elseLines_meets (inside : e.Inside t b) (apt : e.Apt) (renders : e.Renders recurse bound)
    (enough : t.unrendered e.procedure ≤ bound) (edge : x ∈ e.procedure.succs b) (known : e.Known t b x)
    (others : ∀ y ∈ e.procedure.succs b, y ≠ x → e.Heeds t t.hints b y) :
    Ensures (e.elseLines recurse b x) t fun _ t' => e.Reached b t t' [x] := by
  unfold Emitter.elseLines
  apply Meets.traversal
  rw [apt.facts]
  refine Meets.ite (fun deferred => ?_) fun free => ?_
  · refine Meets.ite (fun leaves => ?_) fun _ => Meets.pure (inside.aside deferred)
    exact (inside.leave_meets apt true edge leaves).andThen fun _ _ reached => Meets.pure reached
  · refine Meets.ite (fun feedback => ?_) fun forward => ?_
    · unfold Emitter.elseBack
      apply Meets.of_ok (apt.routed.isLoopTest_eq x)
      refine Meets.ite (fun test => ?_) fun noTest => ?_
      · apply (apt.headerLines_meets x).andThen
        rintro lines t' rfl
        exact Meets.ite (fun _ => Meets.pure (inside.returned ⟨feedback, test⟩))
          fun _ => Meets.pure (inside.returned ⟨feedback, test⟩)
      · have labelled := apt.labelled_of_pred edge (Procedure.isFeedback_target feedback)
        apply (inside.jump_meets true edge labelled (inside.announced known fun returns =>
          absurd returns.2 (Bool.eq_false_iff.1 noTest))).andThen
        exact fun _ _ done => Meets.pure done.1
    · apply (inside.branch_meets apt renders enough edge known (fun returns =>
        absurd returns.1 (Bool.eq_false_iff.1 forward)) others).andThen
      exact fun _ _ done => Meets.pure done.1

theorem Inside.conditional_meets (inside : e.Inside t b) (apt : e.Apt) (renders : e.Renders recurse bound)
    (enough : t.unrendered e.procedure ≤ bound) {cond : Var}
    (ending : e.procedure.ending b = some (.conditional cond y x)) (mem : b ∈ e.procedure.blockIds)
    (known : ∀ z ∈ e.procedure.succs b, e.Known t b z) :
    Ensures (e.conditional recurse b y x) t fun _ t' => e.Reached b t t' [y, x] := by
  obtain ⟨pass, assigned⟩ := apt.assigned
  have edges := apt.routed.targets b _ ending
  have onward : ∀ z ∈ e.procedure.succs b, z ∈ [y, x] := apt.routed.onward b _ ending rfl
  have edge : y ∈ e.procedure.succs b := edges y (by simp [Kind.targets])
  have edge' : x ∈ e.procedure.succs b := edges x (by simp [Kind.targets])
  have single (arms : List (Option Var × BlockId)) : e.procedure.ending b ≠ some (.multiway arms) := by
    simp [ending]
  have strayless (z : BlockId) (stray : e.procedure.Stray b z) : Drifts t t.hints [y, x] z := by
    obtain ⟨arms, ending, -⟩ := stray.repeated
    exact absurd ending (single arms)
  have jumps : ¬ e.procedure.Implicit b y := by
    apply Procedure.not_implicit ending rfl
    rintro cond z ne same
    exact ne (Kind.conditional.inj same).2.1.symm
  -- The first arm is rendered while the target of the second one may be hinted.
  have first (hinted : List BlockId) (nodup : hinted.Nodup) (subset : hinted ⊆ [x])
      (listed : x ∈ hinted ∨ t.Knows x) : Ensures (e.branch recurse y) { t with hints := hinted ++ t.hints } fun _ t' =>
        e.Reached b t (arrived t' hinted x) [y] ∧ e.Known (arrived t' hinted x) b x ∧
          ∀ z ∈ e.procedure.succs b, z ≠ x → e.Heeds (arrived t' hinted x) (arrived t' hinted x).hints b z := by
    have awaits : e.Awaits { t with hints := hinted ++ t.hints } b hinted t.hints [y, x] := by
      apply inside.awaits (.refl _) nodup (List.subset_cons_of_subset y subset) (by simp [edge, edge'])
      · intro z edge
        rcases List.mem_cons.1 (onward z edge) with rfl | second
        · exact .inr (.inr rfl)
        · obtain rfl := List.mem_singleton.1 second
          exact listed.imp id .inl
      · simp [known y edge, known x edge']
      · exact strayless
    have again (same : y ∈ [x]) : e.IsLabelled y := by
      rw [List.mem_singleton.1 same] at ending ⊢
      exact apt.routed.label_of_repeats assigned mem ending (by simp [Kind.targets, repeats])
    apply (awaits.inside.branch_meets apt renders enough edge (awaits.known subset again) (fun _ => jumps)
      fun z edge ne => awaits.heeds edge ne).mono
    rintro _ t' ⟨reached, lands⟩
    have awaits' : e.Awaits t' b hinted t.hints [x] := by
      apply awaits.after apt reached lands subset again _ fun _ => single
      intro mem absent unknown
      rw [List.mem_singleton.1 mem] at absent unknown
      exact absurd listed (not_or.2 ⟨absent, unknown⟩)
    obtain ⟨done, none⟩ := awaits'.arrive
    refine ⟨?_, done.known none (by simp), fun z edge ne => done.heeds edge ne⟩
    have rest := done.hints
    rw [List.eq_nil_of_subset_nil none, List.nil_append] at rest
    rw [arrived_eq]
    exact reached.withHints rest (List.subset_append_right _ _) awaits'.tracks
  have second {lines : List Line} {t' : Traversal} (reached : e.Reached b t t' [y]) (known : e.Known t' b x)
      (others : ∀ z ∈ e.procedure.succs b, z ≠ x → e.Heeds t' t'.hints b z) :
      Ensures (do return lines ++ (← e.elseLines recurse b x)) t' fun _ t'' =>
        e.Reached b t t'' [y, x] := by
    apply Meets.bind
    have enough' := reached.passes.unrendered_le.trans enough
    apply (reached.inside.elseLines_meets apt renders enough' edge' known others).mono
    exact fun _ _ reached' => Meets.pure (reached.trans reached')
  unfold Emitter.conditional
  apply Meets.traversal
  cases hinted : !t.isDeferred x && !t.isJumpTarget x with
  | true =>
    simp only [if_true]
    apply Meets.update
    apply (first [x] (by simp) (.refl _) (by simp)).andThen
    rintro lines t' ⟨reached, arrivedKnown, others⟩
    rw [arrived, if_pos (by simp)] at reached arrivedKnown others
    apply Meets.update
    exact second reached arrivedKnown others
  | false =>
    have listed : t.Knows x := by
      simp only [Bool.and_eq_false_iff, Bool.not_eq_false', Traversal.isJumpTarget,
        decide_eq_true_eq] at hinted
      exact .inr hinted.symm
    simp only [Bool.false_eq_true, if_false]
    apply (first [] .nil (by simp) (.inr listed)).andThen
    rintro lines t' ⟨reached, arrivedKnown, others⟩
    rw [arrived, if_neg (by simp)] at reached arrivedKnown others
    exact second reached arrivedKnown others

/-! ## Multi-way branches -/

structure Branched (e : Emitter) (b : BlockId) (t t' : Traversal) (via : List BlockId) : Prop where
  reached : e.Reached b t t' via
  stranded : ∀ x, e.procedure.Stray b x → x ∈ t'.rendered ∧ x ∈ t'.jumpTargets ∧ x ∉ t'.printed

theorem Awaits.branched (awaits : e.Awaits t b [] outer []) : e.Branched b { t with hints := outer } t [] where
  reached :=
    (awaits.inside.refl (by simp)).withHints awaits.hints (fun x mem => awaits.hints.mem_iff.2 mem) awaits.tracks
  stranded x stray := by
    rcases awaits.drifts x stray with ⟨-, -, -, twice⟩ | ⟨rendered, unprinted, none | jumped⟩
    · simp [repeats] at twice
    · simp at none
    · exact ⟨rendered, jumped, unprinted⟩

theorem Awaits.multiwayArms_meets (apt : e.Apt) (renders : e.Renders recurse bound)
    (arms : List (Option Var × BlockId)) (awaits : e.Awaits t b hinted outer (arms.map (·.2)))
    (listed : b ∈ e.procedure.blockIds) (jumps : ∀ x, ¬ e.procedure.Implicit b x)
    (repeated : ∀ x ∈ repeats (arms.map (·.2)), e.procedure.Repeats b x)
    (enough : t.unrendered e.procedure ≤ bound) (first : Bool) :
    Ensures (e.multiwayArms recurse b first hinted arms) t fun _ t' =>
      e.Branched b { t with hints := outer } t' (arms.map (·.2)) := by
  induction arms generalizing t hinted first with
  | nil =>
    obtain rfl : hinted = [] := List.eq_nil_of_subset_nil awaits.subset
    exact Meets.pure awaits.branched
  | cons arm arms ih =>
    obtain ⟨cond, x⟩ := arm
    have again (mem : x ∈ arms.map (·.2)) : e.procedure.Repeats b x :=
      repeated x (mem_repeats_cons.2 (.inl ⟨rfl, mem⟩))
    have twice (mem : x ∈ arms.map (·.2)) : e.IsLabelled x := by
      obtain ⟨pass, assigned⟩ := apt.assigned
      obtain ⟨all, ending, twice⟩ := again mem
      exact apt.routed.label_of_repeats assigned listed ending twice
    have edge : x ∈ e.procedure.succs b := awaits.edges x (.head _)
    obtain ⟨awaits', later⟩ := awaits.arrive
    have enough' : (arrived t hinted x).unrendered e.procedure ≤ bound := by rwa [arrived_eq]
    have same : { arrived t hinted x with hints := outer } = { t with hints := outer } := by
      rw [arrived_eq]
    -- What the arm does, and what the later arms do then.
    have follows {t' : Traversal} (reached : e.Reached b (arrived t hinted x) t' [x])
        (lands : e.Lands (arrived t hinted x) t' x) : Ensures
          (e.multiwayArms recurse b false (hinted.erase x) arms) t' fun _ t'' =>
          e.Branched b { t with hints := outer } t'' (x :: arms.map (·.2)) := by
      have awaits'' := awaits'.after apt reached lands later twice (fun mem _ _ => again mem)
        fun mem => absurd rfl (awaits.nodup.mem_erase_iff.1 mem).1
      apply (ih awaits'' (fun y mem => repeated y (mem_repeats_cons.2 (.inr mem)))
        (reached.passes.unrendered_le.trans enough') false).mono
      rintro _ t'' ⟨reached', stranded⟩
      have whole := reached.withHints (.refl outer)
        (fun y mem => awaits'.hints.mem_iff.2 (List.mem_append_right _ mem)) awaits''.tracks
      rw [same] at whole
      exact ⟨whole.trans reached', stranded⟩
    have printed (header : List Line) : Ensures (do
        let lines ← e.branch recurse x
        return header ++ lines ++ (← e.multiwayArms recurse b false (hinted.erase x) arms))
        (arrived t hinted x) fun _ t'' => e.Branched b { t with hints := outer } t'' (x :: arms.map (·.2)) := by
      apply (awaits'.inside.branch_meets apt renders enough' edge (awaits'.known later twice) (fun _ => jumps x)
        fun y edge ne => awaits'.heeds edge ne).andThen
      rintro _ t' ⟨reached, lands⟩
      apply (follows reached lands).andThen
      exact fun _ _ branched => Meets.pure branched
    unfold Emitter.multiwayArms
    apply arrive_meets
    apply Meets.traversal
    cases cond with
    | none =>
      simp only
      split
      · rename_i joins
        simp only [Bool.and_eq_true] at joins
        have aside : (arrived t hinted x).isDeferred x = true := joins.2.1.2
        exact follows (awaits'.inside.aside aside)
          ⟨fun rendered => absurd rendered (awaits'.inside.within.sound.not_mem_of_isDeferred aside),
            fun _ free => by simp [aside] at free⟩
      · exact printed _
    | some v => exact printed _

theorem Inside.multiway_meets (inside : e.Inside t b) (apt : e.Apt) (renders : e.Renders recurse bound)
    (enough : t.unrendered e.procedure ≤ bound) {arms : List (Option Var × BlockId)}
    (ending : e.procedure.ending b = some (.multiway arms)) (listed : b ∈ e.procedure.blockIds)
    (known : ∀ x ∈ e.procedure.succs b, e.Known t b x)
    (unmet : ∀ x, e.procedure.Stray b x → x ∉ t.rendered ∧ x ∉ t.jumpTargets ∧ x ∉ t.hints) :
    Ensures (e.multiway recurse b arms) t fun _ t' => e.Branched b t t' (arms.map (·.2)) := by
  have edges : ∀ x ∈ arms.map (·.2), x ∈ e.procedure.succs b := apt.routed.targets b _ ending
  have onward : ∀ x ∈ e.procedure.succs b, x ∈ arms.map (·.2) := apt.routed.onward b _ ending rfl
  unfold Emitter.multiway
  rw [apt.routed.placed b arms ending]
  apply Meets.traversal
  apply Meets.update
  rw [foldl_hint]
  generalize same : (((arms.drop 1).map (·.2)).filter fun target =>
    !t.isDeferred target && !t.isJumpTarget target).eraseDups = hinted
  have hinted_iff (z : BlockId) : z ∈ hinted ↔ z ∈ (arms.drop 1).map (·.2) ∧
      t.isDeferred z = false ∧ z ∉ t.jumpTargets := by
    rw [← same, List.mem_eraseDups, List.mem_filter]
    simp [Traversal.isJumpTarget]
  have awaits : e.Awaits { t with hints := hinted.reverse ++ t.hints } b hinted t.hints (arms.map (·.2)) := by
    apply inside.awaits ((List.reverse_perm hinted).append_right t.hints)
    · rw [← same]
      exact eraseDups_nodup _
    · intro z mem
      exact ((List.drop_sublist 1 arms).map _).subset ((hinted_iff z).1 mem).1
    · exact edges
    · intro z edge
      by_cases later : z ∈ (arms.drop 1).map (·.2)
      · by_cases deferred : t.isDeferred z = true
        · exact .inr (.inl (.inr (.inr deferred)))
        · by_cases jumped : z ∈ t.jumpTargets
          · exact .inr (.inl (.inr (.inl jumped)))
          · exact .inl ((hinted_iff z).2 ⟨later, by simpa using deferred, jumped⟩)
      · have mem := onward z edge
        cases arms with
        | nil => simp at mem
        | cons =>
          rcases List.mem_cons.1 mem with rfl | again
          · exact .inr (.inr rfl)
          · exact absurd again later
    · exact fun z mem => known z (edges z mem)
    · intro z stray
      obtain ⟨all, ending', twice⟩ := stray.repeated
      obtain rfl := Kind.multiway.inj (Option.some.inj (ending.symm.trans ending'))
      obtain ⟨fresh, unjumped, unhinted⟩ := unmet z stray
      exact .inl ⟨fresh, unjumped, unhinted, twice⟩
  exact awaits.multiwayArms_meets apt renders arms listed (fun x => Procedure.not_implicit ending rfl (by simp))
    (fun x twice => ⟨arms, ending, twice⟩) enough true

end Reflow.Emitter
