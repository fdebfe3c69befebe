import Reflow.Proofs.Total.Continuation

namespace Reflow

namespace Traversal

variable {p : Procedure} {t : Traversal} {b x : BlockId} {needed : Bool}

theorem Knows.started (knows : t.Knows x) : (t.started p b needed).Knows x := by
  rcases knows with rendered | jumped | aside
  · exact .inl (mem_started_rendered.2 (.inr rendered))
  · exact .inr (.inl (by rwa [started_jumpTargets]))
  · obtain ⟨depth, mem⟩ := isDeferred_iff.1 aside
    refine .inr (.inr (isDeferred_iff.2 ⟨depth, ?_⟩))
    rw [started_frontier]
    rcases begun_cases p t b with ⟨-, same, -⟩ | ⟨join, -, -, -, -, same⟩
    · exact same ▸ mem
    · rw [same]
      exact .tail _ mem

end Traversal

namespace Emitter

open Emission

variable {e : Emitter} {recurse : Recurse} {bound : Nat} {t t' : Traversal} {b x join : BlockId} {printed : Bool}

theorem Apt.stmtLines_meets (apt : e.Apt) {stmt : Stmt × Kind} (mem : stmt ∈ e.procedure.kinds b) :
    Ensures (e.stmtLines b stmt) t fun _ t' => t' = t.printIf b (stmt.2 = .label) := by
  obtain ⟨stmt, kind⟩ := stmt
  unfold Emitter.stmtLines
  split
  · rename_i same
    obtain ⟨rfl, rfl⟩ := Prod.mk.inj same
    exact Meets.pure rfl
  · rename_i stmt' kind' real same
    obtain ⟨rfl, rfl⟩ := Prod.mk.inj same
    obtain ⟨text, rendered⟩ := apt.text b _ mem real
    apply Meets.of_ok rendered
    by_cases label : kind = .label
    · rw [if_pos label]
      apply Meets.update
      apply Meets.pure
      simp [Traversal.printIf, label]
    · rw [if_neg label]
      apply Meets.pure
      simp [Traversal.printIf, label]

theorem Apt.concat_meets (apt : e.Apt) (stmts : List (Stmt × Kind)) (subset : stmts ⊆ e.procedure.kinds b) :
    Ensures (concat (stmts.map (e.stmtLines b))) t fun _ t' => t' = t.printIf b (holdsLabel stmts) := by
  induction stmts generalizing t with
  | nil => exact Meets.pure rfl
  | cons stmt _ ih =>
    apply (apt.stmtLines_meets (subset (.head _))).andThen
    rintro _ t' rfl
    apply (ih fun stmt mem => subset (.tail _ mem)).andThen
    rintro _ t' rfl
    apply Meets.pure
    rw [Traversal.printIf_printIf]
    rfl

theorem Apt.bodyLines_meets (apt : e.Apt) (stmts : List (Stmt × Kind)) (subset : stmts ⊆ e.procedure.kinds b) :
    Ensures (e.bodyLines b stmts) t fun _ t' => t' = t.printIf b (holdsLabel stmts) := by
  rcases List.eq_nil_or_concat' stmts with rfl | ⟨front, last, rfl⟩
  · exact Meets.pure rfl
  · have split : holdsLabel (front ++ [last]) = (holdsLabel front || decide (last.2 = .label)) := by
      simp [holdsLabel]
    unfold Emitter.bodyLines
    rw [List.getLast?_concat, List.dropLast_concat, split, ← Traversal.printIf_printIf]
    apply (apt.concat_meets front fun stmt mem => subset (List.mem_append_left _ mem)).andThen
    rintro _ t' rfl
    apply (apt.stmtLines_meets (subset (by simp))).andThen
    rintro _ t' rfl
    cases last.2.isBranching <;> exact Meets.pure rfl

theorem Apt.someJumps_eq (apt : e.Apt) (t : Traversal) (b : BlockId) (preds : List BlockId) : ∃ jumps,
    Labels.someJumps e.procedure e.facts t b (e.procedure.isTest b) preds = .ok jumps ∧
    (jumps = false → ∀ c ∈ preds, (c ≠ b ∧ c ∈ t.rendered ∨ e.procedure.isTest b = true ∧
      (c = b ∨ e.procedure.analysis.isFeedback c b = true)) ∧
      (e.procedure.Switches c → e.procedure.analysis.ipdom? c = some b)) := by
  induction preds with
  | nil => exact ⟨false, rfl, by simp⟩
  | cons pred preds ih =>
    obtain ⟨jumps, found, rest⟩ := ih
    obtain ⟨switches, ends, known⟩ := apt.routed.endsWithSwitch_eq pred
    simp only [Labels.someJumps, ends, found, Bind.bind, Except.bind, Pure.pure, Except.pure]
    split
    · exact ⟨true, rfl, by simp⟩
    · rename_i joins
      split
      · exact ⟨true, rfl, by simp⟩
      · rename_i back
        split
        · exact ⟨true, rfl, by simp⟩
        · rename_i stays
          refine ⟨jumps, rfl, fun none c mem => ?_⟩
          rcases List.mem_cons.1 mem with rfl | later
          · rw [apt.facts] at back joins
            simp only [Traversal.isRendered, Bool.and_eq_true, Bool.or_eq_true, Bool.not_eq_true', beq_iff_eq,
              decide_eq_false_iff_not, not_and, Bool.not_eq_false] at back stays
            refine ⟨?_, fun isSwitch => by simpa [known isSwitch] using joins⟩
            by_cases same : c = b
            · exact .inr ⟨stays (.inr same), .inl same⟩
            · by_cases rendered : c ∈ t.rendered
              · exact .inl ⟨same, rendered⟩
              · exact .inr ⟨stays (.inl rendered), .inr (back rendered)⟩
          · exact rest none c later

theorem holdsLabel_upToLastReal {stmts : List (Stmt × Kind)} :
    holdsLabel (upToLastReal stmts) = true ↔ ∃ stmt ∈ stmts, stmt.2 = .label := by
  simp only [holdsLabel, List.any_eq_true, decide_eq_true_eq]
  constructor
  · rintro ⟨stmt, mem, label⟩
    exact ⟨stmt, upToLastReal_subset _ mem, label⟩
  · rintro ⟨stmt, mem, label⟩
    exact ⟨stmt, mem_upToLastReal mem (by rw [label]; rfl), label⟩

theorem Apt.isNeeded_eq (apt : e.Apt) (fits : e.Fits t b) (listed : b ∈ e.procedure.blockIds) :
    ∃ needed, e.labels.isNeeded e.procedure e.facts (t.begun e.procedure b) b (e.procedure.isTest b) = .ok needed ∧
      (needed = true → e.IsLabelled b) ∧
      e.Decides t b (needed || holdsLabel (upToLastReal (e.procedure.kinds b))) := by
  obtain ⟨pass, assigned⟩ := apt.assigned
  have explicit_iff := apt.routed.isExplicitTarget_iff assigned (x := b)
  have quiet {c : BlockId} (stray : e.procedure.Stray c b) :
      holdsLabel (upToLastReal (e.procedure.kinds b)) = false := by
    rw [Bool.eq_false_iff, ne_eq, holdsLabel_upToLastReal]
    rintro ⟨stmt, mem, label⟩
    exact stray.unlabelled stmt mem label
  have unlabelled {needed : Bool} (none : (needed || holdsLabel (upToLastReal (e.procedure.kinds b))) = false) :
      ∀ stmt ∈ e.procedure.kinds b, stmt.2 ≠ .label := by
    intro stmt mem label
    have holds := holdsLabel_upToLastReal.2 ⟨stmt, mem, label⟩
    simp [holds] at none
  unfold Labels.isNeeded
  split
  · rename_i labelled
    have holds := holdsLabel_upToLastReal.2 (apt.routed.label b labelled)
    refine ⟨false, rfl, by simp, by simp [holds], ?_⟩
    intro c stray
    simp [quiet stray] at holds
  · split
    · rename_i wanted
      simp only [Bool.or_eq_true, Traversal.isJumpTarget, Traversal.isHinted, decide_eq_true_eq,
        Traversal.begun_jumpTargets, Traversal.begun_hints] at wanted
      refine ⟨true, rfl, fun _ => ?_, by simp, ?_⟩
      · rcases wanted with (explicit | jumped) | hinted
        · exact apt.routed.label_of_isExplicitTarget assigned explicit
        · exact fits.tidy.labelled b jumped
        · exact fits.hinted hinted
      · intro c stray unjumped unhinted
        rcases wanted with (explicit | jumped) | hinted
        · obtain ⟨d, known, target⟩ := explicit_iff.1 explicit
          exact absurd target (stray.unnamed d known)
        · exact absurd jumped unjumped
        · exact absurd hinted unhinted
    · rename_i unwanted
      simp only [Bool.or_eq_true, Traversal.isJumpTarget, Traversal.isHinted, decide_eq_true_eq,
        Traversal.begun_jumpTargets, Traversal.begun_hints, not_or] at unwanted
      have silent {needed : Bool} (entered : e.Entered t b)
          (none : (needed || holdsLabel (upToLastReal (e.procedure.kinds b))) = false) : e.Silent t b :=
        ⟨not_or.2 ⟨unwanted.2, unwanted.1.2⟩, entered, unlabelled none,
          fun c known target => unwanted.1.1 (explicit_iff.2 ⟨c, known, target⟩)⟩
      split
      · rename_i few
        exact ⟨false, rfl, by simp, silent (.inl few), fun c stray _ _ => by simp [quiet stray]⟩
      · rename_i several
        obtain ⟨jumps, found, entered⟩ :=
          apt.someJumps_eq (t.begun e.procedure b) b (e.procedure.preds b)
        refine ⟨jumps, found, fun _ => ?_, fun none => silent (.inr fun c edge => ?_) none,
          fun c stray => absurd stray.alone several⟩
        · exact apt.routed.label_of_inDegree assigned listed (Nat.lt_of_not_le several)
        · obtain ⟨pred, joins⟩ :=
            entered (Bool.or_eq_false_iff.1 none).1 c ((apt.routed.preds b listed c).2 edge)
          rw [Traversal.begun_rendered] at pred
          refine ⟨?_, joins⟩
          rcases pred with ⟨ne, rendered⟩ | ⟨test, rfl | feedback⟩
          · exact .inl ((mem_addNew.1 rendered).resolve_left ne)
          · exact .inr ⟨Procedure.isFeedback_of_dominates fits.ready.reachable edge (.refl c), test⟩
          · exact .inr ⟨feedback, test⟩

theorem carries_started (fresh : b ∉ t.rendered) : t.Carries (t.started e.procedure b printed) where
  toGrows := Traversal.grows_started
  hints := .of_eq Traversal.started_hints
  late := by
    intro x rendered mem
    rcases Traversal.mem_started_printed.1 mem with ⟨-, rfl⟩ | old
    · exact absurd rendered fresh
    · exact old

theorem Decides.eq_true (decides : e.Decides t b printed) (wanted : b ∈ t.hints ∨ b ∈ t.jumpTargets) :
    printed = true := by
  cases printed with
  | true => rfl
  | false => exact absurd wanted (decides.silent rfl).unlisted

theorem Decides.adds (decides : e.Decides t b printed) : t.Adds e.procedure (t.started e.procedure b printed) [b] where
  origin := by
    intro c mem fresh
    rcases Traversal.mem_started_rendered.1 mem with rfl | old
    · exact .inl (.head _)
    · exact absurd old fresh
  jumped := by
    intro c mem fresh
    rw [Traversal.started_jumpTargets] at mem
    exact absurd mem fresh
  printed := by
    intro c mem fresh wanted
    rcases Traversal.mem_started_rendered.1 mem with rfl | old
    · exact Traversal.mem_started_printed.2 (.inl ⟨decides.eq_true wanted, rfl⟩)
    · exact absurd old fresh

theorem Fits.tidy_started (fits : e.Fits t b) (decides : e.Decides t b printed) :
    e.Tidy (t.started e.procedure b printed) := by
  have tidy := fits.tidy
  have none (unprinted : b ∉ (t.started e.procedure b printed).printed) : printed = false := by
    rw [Bool.eq_false_iff]
    exact fun isPrinted => unprinted (Traversal.mem_started_printed.2 (.inl ⟨isPrinted, rfl⟩))
  have older {x : BlockId} (unprinted : x ∉ (t.started e.procedure b printed).printed) : x ∉ t.printed :=
    fun old => unprinted (Traversal.mem_started_printed.2 (.inr old))
  have wider : t.rendered ⊆ (t.started e.procedure b printed).rendered :=
    fun _ old => Traversal.mem_started_rendered.2 (.inr old)
  refine ⟨?_, ?_, ?_⟩
  · intro x mem unprinted
    rcases Traversal.mem_started_rendered.1 mem with rfl | old
    · have silent := decides.silent (none unprinted)
      exact ⟨silent.entered.mono wider, silent.quiet⟩
    · exact (tidy.printed x old (older unprinted)).imp (fun entered => entered.mono wider) id
  · intro x jumped mem
    rw [Traversal.started_jumpTargets] at jumped
    rcases Traversal.mem_started_rendered.1 mem with rfl | old
    · exact .inl (Traversal.mem_started_printed.2 (.inl ⟨decides.eq_true (.inr jumped), rfl⟩))
    · exact (tidy.jumped x jumped old).imp (fun printed => Traversal.mem_started_printed.2 (.inr printed)) id
  · rw [Traversal.started_jumpTargets]
    exact tidy.labelled

theorem Fits.other (fits : e.Fits t b) {c : BlockId} (rendered : c ∈ t.rendered) : c ≠ b := by
  rintro rfl
  exact fits.ready.fresh rendered

theorem Fits.inside_started (fits : e.Fits t b) (decides : e.Decides t b printed) :
    e.Inside (t.started e.procedure b printed) b := by
  refine ⟨fits.ready.started_within, fits.tidy_started decides, ?_, ?_⟩
  · intro c rendered ne x edge
    have old := (Traversal.mem_started_rendered.1 rendered).resolve_left ne
    by_cases same : x = b
    · exact .inl (.inl (.inl (Traversal.mem_started_rendered.2 (.inl same))))
    · apply (fits.heeded c old x edge same).mono (fun _ => Traversal.Knows.started)
      exact (carries_started fits.ready.fresh).hints.symm.subset
  · intro entry mem shallow
    rw [Traversal.started_openExits] at shallow
    have old : entry ∈ t.frontier := by
      rw [Traversal.started_frontier] at mem
      rcases Traversal.begun_cases e.procedure t b with ⟨-, same, -⟩ | ⟨join, -, -, -, -, same⟩
      · rwa [same] at mem
      · rw [same] at mem
        rcases List.mem_cons.1 mem with rfl | old
        · exact absurd shallow (Nat.lt_irrefl _)
        · exact old
    obtain ⟨d, rendered, ipdom⟩ := fits.ready.sound.aside entry old
    exact ⟨d, fits.other rendered, ipdom⟩

theorem Fits.unclaimed_started (fits : e.Fits t b) (none : (t.render b).joinOf e.procedure b = none)
    (idom : e.procedure.analysis.idom? x = some b) : (t.started e.procedure b printed).isDeferred x = false := by
  rw [Bool.eq_false_iff, ne_eq, Traversal.isDeferred_iff, Traversal.started_frontier]
  rintro ⟨depth, mem⟩
  rcases Traversal.begun_cases e.procedure t b with ⟨-, same, -⟩ | ⟨join, some, -⟩
  · rw [same] at mem
    obtain ⟨d, rendered, ipdom⟩ := fits.ready.sound.aside _ mem
    have idom := Procedure.idom?_eq_some_iff.1 idom
    have above : e.procedure.Dominates b d := Procedure.Dominates.of_ipdom? idom.dominates idom.ne ipdom
    exact fits.ready.fresh (fits.ready.sound.dominators d rendered b above)
  · simp [none] at some

theorem Fits.below_started (fits : e.Fits t b) (ne : x ≠ b) (dominates : e.procedure.Dominates b x) :
    x ∉ (t.started e.procedure b printed).rendered := by
  intro rendered
  have old := (Traversal.mem_started_rendered.1 rendered).resolve_left ne
  exact fits.ready.fresh (fits.ready.sound.dominators x old b dominates)

theorem Fits.known_started (fits : e.Fits t b) (apt : e.Apt) (decides : e.Decides t b printed)
    (edge : x ∈ e.procedure.succs b) : e.Known (t.started e.procedure b printed) b x := by
  have ready := fits.ready
  have entered (origin : x = e.procedure.entry ∨ ∃ c ∈ t.rendered, e.procedure.Leads c x) :
      x = e.procedure.entry ∨ ∃ c, c ≠ b ∧ x ∈ e.procedure.succs c :=
    origin.imp id fun ⟨c, rendered, leads⟩ => leads.exists_pred (fits.other rendered)
  constructor
  · intro mem
    rcases Traversal.mem_started_rendered.1 mem with rfl | old
    · -- The block leads to itself.
      have two := apt.routed.one_lt_inDegree edge (entered ready.origin)
      refine ⟨?_, apt.labelled_of_pred edge (entered ready.origin)⟩
      cases printed with
      | true => exact .inl (Traversal.mem_started_printed.2 (.inl ⟨rfl, rfl⟩))
      | false =>
        rcases (decides.silent rfl).entered with few | preds
        · omega
        · exact .inr (.inr ((preds x edge).1.resolve_left ready.fresh))
    · have origin := entered (ready.sound.origin x old)
      have two := apt.routed.one_lt_inDegree edge origin
      refine ⟨?_, apt.labelled_of_pred edge origin⟩
      by_cases earlier : x ∈ t.printed
      · exact .inl (Traversal.mem_started_printed.2 (.inr earlier))
      · rcases (fits.tidy.printed x old earlier).1 with few | preds
        · omega
        · exact .inr (.inr ((preds b edge).1.resolve_left ready.fresh))
  · intro hinted
    rw [Traversal.started_hints] at hinted
    obtain ⟨c, rendered, second⟩ := ready.sound.hinted x hinted
    exact apt.labelled_of_pred edge (.inr ⟨c, fits.other rendered, second⟩)

theorem Fits.unmet_started (fits : e.Fits t b) (apt : e.Apt) (stray : e.procedure.Stray b x) :
    x ∉ (t.started e.procedure b printed).rendered ∧ x ∉ (t.started e.procedure b printed).jumpTargets ∧
      x ∉ (t.started e.procedure b printed).hints := by
  have ready := fits.ready
  have unled {c : BlockId} (rendered : c ∈ t.rendered) (leads : e.procedure.Leads c x) : False :=
    fits.other rendered (stray.eq_of_leads apt.routed leads)
  have unreached (origin : x = e.procedure.entry ∨ ∃ c ∈ t.rendered, e.procedure.Leads c x) : False := by
    rcases origin with entry | ⟨c, rendered, leads⟩
    · exact stray.ne_entry apt.routed entry
    · exact unled rendered leads
  rw [Traversal.started_jumpTargets, Traversal.started_hints]
  refine ⟨fun mem => ?_, fun jumped => ?_, fun hinted => ?_⟩
  · rcases Traversal.mem_started_rendered.1 mem with rfl | old
    · exact unreached ready.origin
    · exact unreached (ready.sound.origin x old)
  · obtain ⟨c, rendered, edge⟩ := ready.sound.targets x jumped
    exact unled rendered (.inl edge)
  · obtain ⟨c, rendered, edge⟩ := ready.sound.hinted x hinted
    exact unled rendered (.inl edge)

theorem Branched.finishes (branched : e.Branched b (t.started e.procedure b printed) t' (e.procedure.succs b)) :
    e.Finishes t t' := by
  intro c mem fresh
  by_cases started : c ∈ (t.started e.procedure b printed).rendered
  · obtain rfl := (Traversal.mem_started_rendered.1 started).resolve_right fresh
    exact ⟨branched.reached.knows, branched.stranded⟩
  · exact branched.reached.finishes c mem started

theorem Fits.mem_printed_iff (fits : e.Fits t b) (carries : (t.started e.procedure b printed).Carries t') :
    decide (b ∈ t'.printed) = printed := by
  have started : b ∈ (t.started e.procedure b printed).printed ↔ printed = true := by
    have unprinted : b ∉ t.printed := fun old => fits.ready.fresh (fits.ready.sound.printed old)
    simp [Traversal.mem_started_printed, unprinted]
  rw [Bool.eq_iff_iff, decide_eq_true_eq, ← started]
  exact ⟨carries.late b (Traversal.mem_started_rendered.2 (.inl rfl)), fun early => carries.printed early⟩

theorem Fits.joinLines_meets (fits : e.Fits t b) (apt : e.Apt) (renders : e.Renders recurse bound)
    (decides : e.Decides t b printed) (enough : t'.unrendered e.procedure ≤ bound)
    (branched : e.Branched b (t.started e.procedure b printed) t' (e.procedure.succs b)) :
    Ensures (joinLines recurse b ((t.render b).joinOf e.procedure b)) t' fun _ t'' =>
      e.Rendered t t'' b := by
  have reached := branched.reached
  have inside := reached.inside
  have begins : t.Carries (t.started e.procedure b printed) := carries_started fits.ready.fresh
  have carries : t.Carries t' := begins.trans reached.passes.toCarries
  have adds : t.Adds e.procedure t' (b :: e.procedure.succs b) :=
    decides.adds.trans begins reached.passes.toCarries reached.adds
  have openExits : t'.openExits = t.openExits := by
    rw [reached.passes.openExits, Traversal.started_openExits]
  have frontier := reached.passes.frontier
  rw [Traversal.started_frontier] at frontier
  rcases Traversal.begun_cases e.procedure t b with
    ⟨none, same, -⟩ | ⟨join, some, ipdom, -, -, same⟩
  · rw [none]
    rw [same] at frontier
    apply Meets.pure
    exact {
      passes := { carries with frontier := frontier, openExits := openExits }
      sound := inside.within.sound
      tidy := inside.tidy
      rendered := inside.within.rendered
      adds := adds.collapse (fun x edge => .inl edge) inside.within.rendered fits.ready.fresh
      decides := fits.mem_printed_iff reached.passes.toCarries ▸ decides
      finishes := branched.finishes }
  · rw [some]
    rw [same] at frontier
    obtain ⟨sound, rest, others⟩ := inside.within.sound.undefer frontier
    have fresh : join ∉ t'.rendered := inside.within.sound.fresh (join, t.openExits.length) (by simp [frontier])
    have leads : e.procedure.Leads b join := .inr ipdom
    have heeded (c : BlockId) (mem : c ∈ t'.rendered) (x : BlockId) (edge : x ∈ e.procedure.succs c)
        (ne : x ≠ join) : e.Heeds (t'.undefer join) t'.hints c x := by
      by_cases same : c = b
      · subst same
        exact .inl ((reached.knows x edge).imp (fun knows => knows.undefer ne) id)
      · exact (inside.tracks c mem same x edge).imp (fun deals => deals.imp (fun knows => knows.undefer ne) id) id
    have resumes : e.Fits (t'.undefer join) join := by
      refine ⟨⟨sound, fresh, rest ▸ others, .inr ⟨b, inside.within.rendered, leads⟩⟩, { inside.tidy with },
        fun hint => ?_, heeded⟩
      obtain ⟨c, rendered, edge⟩ := fits.ready.sound.hinted join (carries.hints.mem_iff.1 hint)
      exact apt.labelled_of_pred edge (.inr (leads.exists_pred (fits.other rendered).symm))
    unfold Emitter.joinLines
    apply Meets.update
    apply Meets.traversal
    rw [if_neg (by simpa [Traversal.isRendered] using resumes.ready.fresh)]
    apply (renders _ join false resumes enough).mono
    intro _ t'' done
    have carries' : t'.Carries t'' := { done.passes.toCarries with }
    have under := carries'.rendered inside.within.rendered
    have knows (x : BlockId) (knows : t'.Knows x) : t''.Knows x := by
      by_cases same : x = join
      · exact .inl (same ▸ done.rendered)
      · exact done.passes.knows (knows.undefer same)
    have later : t'.Adds e.procedure t'' [join] := { done.adds with }
    exact {
      passes := { carries.trans carries' with
        frontier := done.passes.frontier.trans rest
        openExits := done.passes.openExits.trans openExits }
      sound := done.sound
      tidy := done.tidy
      rendered := under
      adds := by
        apply (adds.trans carries carries' later).collapse _ under fits.ready.fresh
        intro x mem
        rcases List.mem_append.1 mem with edge | single
        · exact .inl edge
        · exact List.mem_singleton.1 single ▸ leads
      decides := fits.mem_printed_iff (reached.passes.toCarries.trans carries') ▸ decides
      finishes := branched.finishes.trans done.finishes carries' knows }

theorem labelLines_meets (labelled : printed = true → e.IsLabelled b) :
    Ensures (if printed then e.labelLines b else pure []) t fun _ t' => t' = t.printIf b printed := by
  cases printed with
  | false => exact Meets.pure rfl
  | true =>
    obtain ⟨text, found⟩ := labelled rfl
    simp only [if_true]
    unfold Emitter.labelLines
    apply Meets.of_ok found
    apply Meets.noteLabel
    exact Meets.pure rfl

theorem Apt.freshBlock_meets (apt : e.Apt) (renders : e.Renders recurse bound) (braced : Bool)
    (fits : e.Fits t b) (listed : b ∈ e.procedure.blockIds) (enough : (t.render b).unrendered e.procedure ≤ bound) :
    Ensures (e.freshBlock recurse b braced) t fun _ t' => e.Rendered t t' b := by
  unfold Emitter.freshBlock
  apply Meets.update
  apply Meets.of_ok (apt.routed.classified b)
  apply (deferJoin_meets (by rw [apt.facts])).andThen
  rintro deferred begun ⟨rfl, rfl⟩
  extract_lets terminator loopTest
  have test : loopTest = e.procedure.isTest b := rfl
  obtain ⟨needed, found, labelled, decides⟩ := apt.isNeeded_eq fits listed
  apply Meets.traversal
  rw [test]
  apply Meets.of_ok found
  extract_lets opened
  apply Meets.bind_ite
  apply (labelLines_meets labelled).mono
  rintro label t' rfl
  apply (apt.bodyLines_meets _ (upToLastReal_subset _)).andThen
  rintro body t' rfl
  rw [Traversal.printIf_printIf]
  have enough' : (t.started e.procedure b
      (needed || holdsLabel (upToLastReal (e.procedure.kinds b)))).unrendered e.procedure ≤ bound :=
    Traversal.started_unrendered.trans_le enough
  apply ((fits.inside_started decides).continuation_meets apt renders enough'
    (fun x edge => fits.known_started apt decides edge) (fun x stray => fits.unmet_started apt stray)
    (fun none x => fits.unclaimed_started none) (fun x => fits.below_started) listed (braced && !opened)).andThen
  rintro ⟨rest, _⟩ t' ⟨branched, rfl⟩
  apply (fits.joinLines_meets apt renders decides
    (branched.reached.passes.unrendered_le.trans enough') branched).andThen
  exact fun _ t'' rendered => Meets.pure rendered

end Emitter

end Reflow
