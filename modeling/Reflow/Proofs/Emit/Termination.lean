import Reflow.Proofs.Emit.Lockstep

namespace Reflow

abbrev Outcome := EStateM.Result EmitError Progress

open Emission

namespace Emitter

variable {e : Emitter} {α : Type} {b : BlockId} {braced : Bool} {here middle after : Progress}
  {calls more : List BlockId} {depth depth' : Nat}
  {result result' : Outcome (List Line)}

noncomputable def script (e : Emitter) (b : BlockId) (braced : Bool) : Script (List Line) :=
  (e.exists_script b braced).choose

theorem freshBlock_eq_script (e : Emitter) (recurse : Recurse) (b : BlockId) (braced : Bool) :
    e.freshBlock recurse b braced = update (·.render b) >>= fun _ => (e.script b braced).play recurse :=
  (e.exists_script b braced).choose_spec recurse

def begin (here : Progress) (b : BlockId) : Progress :=
  { here with traversal := here.traversal.render b }

/-- What a script comes to from some progress on, with the blocks that it begins to render and the depth to which their
renderings are nested. -/
inductive Evaluates (e : Emitter) : {α : Type} → Script α → Progress → Outcome α →
    List BlockId → Nat → Prop
  | done {α : Type} {result : α} {here : Progress} : Evaluates e (.done result) here (.ok result here) [] 0
  | fail {α : Type} {error : EmitError} {here : Progress} :
      Evaluates e (.fail error : Script α) here (.error error here) [] 0
  | look {α : Type} {next : Traversal → Script α} {here : Progress} {result : Outcome α}
      {calls : List BlockId} {depth : Nat} (rest : Evaluates e (next here.traversal) here result calls depth) :
      Evaluates e (.look next) here result calls depth
  | change {α : Type} {action : Progress → Progress}
      {keeps : ∀ progress, (action progress).traversal.rendered = progress.traversal.rendered} {next : Script α}
      {here : Progress} {result : Outcome α} {calls : List BlockId} {depth : Nat}
      (rest : Evaluates e next (action here) result calls depth) :
      Evaluates e (.change action keeps next) here result calls depth
  | unknown {α : Type} {b : BlockId} {braced : Bool} {next : List Line → Script α} {here : Progress}
      (unlisted : b ∉ e.procedure.blockIds) :
      Evaluates e (.call b braced next) here (.error (.unknownBlock b) here) [] 0
  | again {α : Type} {b : BlockId} {braced : Bool} {next : List Line → Script α} {here : Progress}
      {result : Outcome α} {calls : List BlockId} {depth : Nat}
      (listed : b ∈ e.procedure.blockIds) (rendered : b ∈ here.traversal.rendered)
      (rest : Evaluates e (next []) here result calls depth) : Evaluates e (.call b braced next) here result calls depth
  | stops {α : Type} {b : BlockId} {braced : Bool} {next : List Line → Script α} {here after : Progress}
      {error : EmitError} {calls : List BlockId} {depth : Nat} (listed : b ∈ e.procedure.blockIds)
      (fresh : b ∉ here.traversal.rendered)
      (inside : Evaluates e (e.script b braced) (begin here b) (.error error after) calls depth) :
      Evaluates e (.call b braced next) here (.error error after) (b :: calls) (depth + 1)
  | passes {α : Type} {b : BlockId} {braced : Bool} {next : List Line → Script α} {here middle : Progress}
      {lines : List Line} {result : Outcome α} {calls more : List BlockId} {depth depth' : Nat}
      (listed : b ∈ e.procedure.blockIds) (fresh : b ∉ here.traversal.rendered)
      (inside : Evaluates e (e.script b braced) (begin here b) (.ok lines middle) calls depth)
      (rest : Evaluates e (next lines) middle result more depth') :
      Evaluates e (.call b braced next) here result (b :: calls ++ more) (max (depth + 1) depth')

def behind (lines : List Line) : Outcome (List Line) → Outcome (List Line)
  | .ok others after => .ok (lines ++ others) after
  | .error error after => .error error after

theorem run_behind (lines : List Line) (step : Emission (List Line)) (here : Progress) :
    (do return lines ++ (← step) : Emission (List Line)) here = behind lines (step here) := by
  rw [run_bind]
  cases step here <;> rfl

inductive Clears (e : Emitter) : Progress → Outcome (List Line) → List BlockId → Nat → Prop
  | finished {here : Progress} (nothing : here.traversal.nextPending? = none) : Clears e here (.ok [] here) [] 0
  | stops {here after : Progress} {b : BlockId} {error : EmitError} {calls : List BlockId} {depth : Nat}
      (next : here.traversal.nextPending? = some b)
      (inside : e.Evaluates (.call b false .done) here (.error error after) calls depth) :
      Clears e here (.error error after) calls depth
  | round {here middle : Progress} {b : BlockId} {lines : List Line} {calls more : List BlockId} {depth depth' : Nat}
      {result : Outcome (List Line)} (next : here.traversal.nextPending? = some b)
      (inside : e.Evaluates (.call b false .done) here (.ok lines middle) calls depth)
      (rest : Clears e middle result more depth') :
      Clears e here (behind lines result) (calls ++ more) (max depth depth')

def checked (e : Emitter) : Outcome (List Line) → Outcome (List Line)
  | .ok lines after => (e.checkJumps >>= fun _ => pure lines : Emission (List Line)) after
  | .error error after => .error error after

/-- The whole emission: the entry, the pending blocks, and the check of the jumps. -/
inductive Ends (e : Emitter) : Outcome (List Line) → List BlockId → Nat → Prop
  | stops {after : Progress} {error : EmitError} {calls : List BlockId} {depth : Nat}
      (entry : e.Evaluates (.call e.procedure.entry false .done) {} (.error error after) calls depth) :
      Ends e (.error error after) calls depth
  | checks {middle : Progress} {lines : List Line} {calls more : List BlockId} {depth depth' : Nat}
      {result : Outcome (List Line)}
      (entry : e.Evaluates (.call e.procedure.entry false .done) {} (.ok lines middle) calls depth)
      (pending : e.Clears middle result more depth') :
      Ends e (e.checked (behind lines result)) (calls ++ more) (max depth depth')

theorem Evaluates.unique {script : Script α} {result result' : Outcome α}
    (first : e.Evaluates script here result calls depth) (second : e.Evaluates script here result' more depth') :
    result' = result ∧ more = calls ∧ depth' = depth := by
  induction first generalizing more depth' with
  | done | fail =>
    cases second
    exact ⟨rfl, rfl, rfl⟩
  | look rest ih =>
    cases second with
    | look rest' => exact ih rest'
  | change rest ih =>
    cases second with
    | change rest' => exact ih rest'
  | unknown unlisted =>
    cases second with
    | unknown => exact ⟨rfl, rfl, rfl⟩
    | again listed | stops listed | passes listed => exact absurd listed unlisted
  | again listed rendered rest ih =>
    cases second with
    | unknown unlisted => exact absurd listed unlisted
    | again _ _ rest' => exact ih rest'
    | stops _ fresh | passes _ fresh => exact absurd rendered fresh
  | stops listed fresh _ ih =>
    cases second with
    | unknown unlisted => exact absurd listed unlisted
    | again _ rendered => exact absurd rendered fresh
    | stops _ _ inside' =>
      obtain ⟨same, rfl, rfl⟩ := ih inside'
      cases same
      exact ⟨rfl, rfl, rfl⟩
    | passes _ _ inside' => exact nomatch (ih inside').1
  | passes listed fresh _ _ ihInside ihRest =>
    cases second with
    | unknown unlisted => exact absurd listed unlisted
    | again _ rendered => exact absurd rendered fresh
    | stops _ _ inside' => exact nomatch (ihInside inside').1
    | passes _ _ inside' rest' =>
      obtain ⟨same, rfl, rfl⟩ := ihInside inside'
      cases same
      obtain ⟨rfl, rfl, rfl⟩ := ihRest rest'
      exact ⟨rfl, rfl, rfl⟩

theorem Clears.unique
    (first : e.Clears here result calls depth) (second : e.Clears here result' more depth') :
    result' = result ∧ more = calls ∧ depth' = depth := by
  induction first generalizing result' more depth' with
  | finished nothing =>
    cases second with
    | finished => exact ⟨rfl, rfl, rfl⟩
    | stops next | round next => exact nomatch nothing.symm.trans next
  | stops next inside =>
    cases second with
    | finished nothing => exact nomatch nothing.symm.trans next
    | stops next' inside' =>
      obtain rfl := Option.some.inj (next.symm.trans next')
      exact inside.unique inside'
    | round next' inside' =>
      obtain rfl := Option.some.inj (next.symm.trans next')
      exact nomatch (inside.unique inside').1
  | round next inside rest ih =>
    cases second with
    | finished nothing => exact nomatch nothing.symm.trans next
    | stops next' inside' =>
      obtain rfl := Option.some.inj (next.symm.trans next')
      exact nomatch (inside.unique inside').1
    | round next' inside' rest' =>
      obtain rfl := Option.some.inj (next.symm.trans next')
      obtain ⟨same, rfl, rfl⟩ := inside.unique inside'
      cases same
      obtain ⟨rfl, rfl, rfl⟩ := ih rest'
      exact ⟨rfl, rfl, rfl⟩

theorem Ends.unique (first : e.Ends result calls depth)
    (second : e.Ends result' more depth') : result' = result ∧ more = calls ∧ depth' = depth := by
  cases first with
  | stops entry =>
    cases second with
    | stops entry' => exact entry.unique entry'
    | checks entry' => exact nomatch (entry.unique entry').1
  | checks entry pending =>
    cases second with
    | stops entry' => exact nomatch (entry.unique entry').1
    | checks entry' pending' =>
      obtain ⟨same, rfl, rfl⟩ := entry.unique entry'
      cases same
      obtain ⟨rfl, rfl, rfl⟩ := pending.unique pending'
      exact ⟨rfl, rfl, rfl⟩

structure Visits (e : Emitter) (here after : Progress) (calls : List BlockId) (depth : Nat) : Prop where
  rendered : after.traversal.rendered = calls.reverse ++ here.traversal.rendered
  nodup : calls.Nodup
  listed : calls ⊆ e.procedure.blockIds
  fresh : ∀ b ∈ calls, b ∉ here.traversal.rendered
  depth : depth ≤ here.traversal.unrendered e.procedure

namespace Visits

theorem nothing (same : after.traversal.rendered = here.traversal.rendered) : e.Visits here after [] 0 :=
  ⟨same, .nil, by simp, by simp, Nat.zero_le _⟩

theorem subset (renders : e.Visits here after calls depth) : here.traversal.rendered ⊆ after.traversal.rendered := by
  rw [renders.rendered]
  exact List.subset_append_right _ _

theorem trans (first : e.Visits here middle calls depth) (second : e.Visits middle after more depth') :
    e.Visits here after (calls ++ more) (max depth depth') where
  rendered := by rw [second.rendered, first.rendered, List.reverse_append, List.append_assoc]
  nodup := by
    refine List.nodup_append.2 ⟨first.nodup, second.nodup, ?_⟩
    rintro b earlier _ later rfl
    apply second.fresh b later
    rw [first.rendered]
    exact List.mem_append_left _ (List.mem_reverse.2 earlier)
  listed := List.append_subset.2 ⟨first.listed, second.listed⟩
  fresh b mem old := by
    rcases List.mem_append.1 mem with earlier | later
    · exact first.fresh b earlier old
    · exact second.fresh b later (first.subset old)
  depth := by
    have fewer := (Traversal.unrendered_sublist e.procedure first.subset).length_le
    exact max_le first.depth (second.depth.trans fewer)

theorem inside (listed : b ∈ e.procedure.blockIds) (fresh : b ∉ here.traversal.rendered)
    (renders : e.Visits (begin here b) after calls depth) : e.Visits here after (b :: calls) (depth + 1) := by
  have begun : (begin here b).traversal.rendered = b :: here.traversal.rendered := if_neg fresh
  obtain ⟨rendered, nodup, subset, new, bound⟩ := renders
  rw [begun] at rendered new
  refine ⟨by simp [rendered], List.nodup_cons.2 ⟨fun again => new b again (.head _), nodup⟩,
    List.cons_subset.2 ⟨listed, subset⟩, ?_, ?_⟩
  · intro x mem old
    rcases List.mem_cons.1 mem with rfl | mem
    · exact fresh old
    · exact new x mem (.tail _ old)
  · have fewer := Traversal.unrendered_render_lt listed fresh
    exact Nat.succ_le_of_lt (bound.trans_lt fewer)

theorem length_le (renders : e.Visits here after calls depth) : calls.length ≤ e.procedure.blocks.length := by
  have shorter := (renders.nodup.subperm renders.listed).length_le
  rwa [Procedure.blockIds, List.length_map] at shorter

end Visits

def reached : Outcome α → Progress
  | .ok _ after | .error _ after => after

variable {result : Outcome (List Line)} {lines : List Line}

theorem Evaluates.renders {script : Script α} {result : Outcome α}
    (evaluates : e.Evaluates script here result calls depth) : e.Visits here (reached result) calls depth := by
  induction evaluates with
  | done | fail | unknown => exact .nothing rfl
  | look rest ih => exact ih
  | @change _ _ keeps _ _ _ _ _ _ ih =>
    obtain ⟨rendered, nodup, listed, fresh, bound⟩ := ih
    rw [Traversal.unrendered] at bound
    rw [keeps] at rendered fresh bound
    exact ⟨rendered, nodup, listed, fresh, bound⟩
  | again _ _ _ ih => exact ih
  | stops listed fresh inside ih => exact ih.inside listed fresh
  | passes listed fresh inside rest ihInside ihRest => exact (ihInside.inside listed fresh).trans ihRest

theorem reached_behind (lines : List Line) (result : Outcome (List Line)) :
    reached (behind lines result) = reached result := by
  cases result <;> rfl

theorem run_traversal_bind {β : Type} (next : Traversal → Emission β) (progress : Progress) :
    (traversal >>= next) progress = next progress.traversal progress :=
  rfl

theorem reached_checked (e : Emitter) (result : Outcome (List Line)) : reached (e.checked result) = reached result := by
  cases result with
  | error => rfl
  | ok _ after =>
    have kept : reached (e.checkJumps after) = after := by
      rw [checkJumps, run_traversal_bind]
      cases after.traversal.nextUnlabelled? with
      | none => rfl
      | some target =>
        dsimp only
        cases e.labels.label target <;> rfl
    rw [checked, run_bind]
    cases outcome : e.checkJumps after with
    | ok | error =>
      rw [outcome] at kept
      exact kept

theorem Clears.renders
    (clears : e.Clears here result calls depth) : e.Visits here (reached result) calls depth := by
  induction clears with
  | finished => exact .nothing rfl
  | stops next inside => exact inside.renders
  | round _ inside _ ih =>
    rw [reached_behind]
    exact inside.renders.trans ih

theorem Ends.renders (ends : e.Ends result calls depth) :
    e.Visits {} (reached result) calls depth := by
  cases ends with
  | stops entry => exact entry.renders
  | checks entry pending =>
    rw [reached_checked, reached_behind]
    exact entry.renders.trans pending.renders

theorem emitWithin_of_unlisted (fuel : Nat) (unlisted : b ∉ e.procedure.blockIds) :
    e.emitWithin fuel b braced here = .error (.unknownBlock b) here := by
  unfold emitWithin
  rw [if_pos unlisted]
  rfl

theorem emitWithin_again (fuel : Nat) (listed : b ∈ e.procedure.blockIds) (rendered : b ∈ here.traversal.rendered) :
    e.emitWithin fuel b braced here = .ok [] here := by
  have seen : here.traversal.isRendered b = true := decide_eq_true rendered
  unfold emitWithin
  rw [if_neg (not_not.2 listed)]
  change Emission.run (if here.traversal.isRendered b then _ else _) here = _
  rw [if_pos seen]
  rfl

theorem emitWithin_fresh (fuel : Nat) (listed : b ∈ e.procedure.blockIds) (fresh : b ∉ here.traversal.rendered) :
    e.emitWithin (fuel + 1) b braced here = (e.script b braced).play (e.emitWithin fuel) (begin here b) := by
  have unseen : ¬ here.traversal.isRendered b = true := by simpa [Traversal.isRendered] using fresh
  unfold emitWithin
  rw [if_neg (not_not.2 listed)]
  change Emission.run (if here.traversal.isRendered b then _ else _) here = _
  rw [if_neg unseen, freshBlock_eq_script]
  rfl

theorem exists_evaluates (fuel : Nat) (enough : here.traversal.unrendered e.procedure ≤ fuel) (script : Script α) :
    ∃ calls depth, e.Evaluates script here (script.play (e.emitWithin fuel) here) calls depth := by
  induction fuel using Nat.strong_induction_on generalizing here α with
  | _ fuel ih =>
    induction script generalizing here with
    | done => exact ⟨[], 0, .done⟩
    | fail => exact ⟨[], 0, .fail⟩
    | look next ihNext =>
      obtain ⟨calls, depth, rest⟩ := ihNext here.traversal enough
      exact ⟨calls, depth, .look rest⟩
    | change action keeps next ihNext =>
      have same : (action here).traversal.unrendered e.procedure = here.traversal.unrendered e.procedure := by
        rw [Traversal.unrendered, keeps, Traversal.unrendered]
      obtain ⟨calls, depth, rest⟩ := ihNext (same.trans_le enough)
      exact ⟨calls, depth, .change rest⟩
    | call b braced next ihNext =>
      rw [Script.play, run_bind]
      by_cases listed : b ∈ e.procedure.blockIds
      · by_cases rendered : b ∈ here.traversal.rendered
        · rw [emitWithin_again fuel listed rendered]
          obtain ⟨calls, depth, rest⟩ := ihNext [] enough
          exact ⟨calls, depth, .again listed rendered rest⟩
        · have fewer := Traversal.unrendered_render_lt listed rendered
          obtain ⟨less, rfl⟩ : ∃ less, fuel = less + 1 := ⟨fuel - 1, by omega⟩
          rw [emitWithin_fresh less listed rendered]
          have begun : (begin here b).traversal.unrendered e.procedure ≤ less := by
            change (here.traversal.render b).unrendered e.procedure ≤ less
            omega
          obtain ⟨calls, depth, inside⟩ := ih less (Nat.lt_succ_self less) begun (e.script b braced)
          cases outcome : (e.script b braced).play (e.emitWithin less) (begin here b) with
          | error =>
            rw [outcome] at inside
            exact ⟨b :: calls, depth + 1, .stops listed rendered inside⟩
          | ok lines =>
            rw [outcome] at inside
            have left := (Traversal.unrendered_sublist e.procedure inside.renders.subset).length_le
            obtain ⟨more, depth', rest⟩ := ihNext lines (left.trans (begun.trans (Nat.le_succ less)))
            exact ⟨b :: calls ++ more, max (depth + 1) depth', .passes listed rendered inside rest⟩
      · rw [emitWithin_of_unlisted fuel listed]
        exact ⟨[], 0, .unknown listed⟩

theorem exists_evaluates_block (e : Emitter) (here : Progress) (b : BlockId) (braced : Bool) :
    ∃ calls depth, e.Evaluates (.call b braced .done) here (e.emitBlock b braced here) calls depth := by
  have evaluates := exists_evaluates e.procedure.blocks.length
    (Traversal.unrendered_le_blocks e.procedure here.traversal) (.call b braced .done)
  rwa [Script.play, show (fun lines => (Script.done lines).play _) = (pure : List Line → Emission _) from rfl,
    bind_pure] at evaluates

theorem Evaluates.of_fresh
    (evaluates : e.Evaluates (.call b braced .done) here (.ok lines after) calls depth)
    (fresh : b ∉ here.traversal.rendered) : b ∈ after.traversal.rendered ∧
      after.traversal.unrendered e.procedure < here.traversal.unrendered e.procedure := by
  cases evaluates with
  | again _ rendered => exact absurd rendered fresh
  | passes listed fresh inside rest =>
    cases rest with
    | done =>
      have rendered : b ∈ after.traversal.rendered := inside.renders.subset (mem_addNew.2 (.inl rfl))
      have kept := (inside.renders.inside listed fresh).subset
      exact ⟨rendered, Traversal.unrendered_lt listed fresh kept rendered⟩

theorem emitBlock_enlarges (next : here.traversal.nextPending? = some b)
    (rendered : e.emitBlock b braced here = .ok lines after) :
    b ∉ here.traversal.rendered ∧ b ∈ after.traversal.rendered ∧
      here.traversal.rendered ⊆ after.traversal.rendered := by
  have fresh := (Traversal.mem_of_nextPending? next).2
  obtain ⟨calls, depth, evaluates⟩ := e.exists_evaluates_block here b braced
  rw [rendered] at evaluates
  exact ⟨fresh, (evaluates.of_fresh fresh).1, evaluates.renders.subset⟩

theorem exists_clears (rounds : Nat) (enough : here.traversal.unrendered e.procedure < rounds) :
    ∃ calls depth, e.Clears here (e.emitPending rounds here) calls depth := by
  induction rounds generalizing here with
  | zero => exact absurd enough (Nat.not_lt_zero _)
  | succ _ ih =>
    rw [emitPending, run_traversal_bind]
    cases next : here.traversal.nextPending? with
    | none => exact ⟨[], 0, .finished next⟩
    | some b =>
      obtain ⟨calls, depth, inside⟩ := e.exists_evaluates_block here b false
      rw [run_bind]
      cases outcome : e.emitBlock b false here with
      | error =>
        rw [outcome] at inside
        exact ⟨calls, depth, .stops next inside⟩
      | ok =>
        rw [outcome] at inside
        have fewer := (inside.of_fresh (Traversal.mem_of_nextPending? next).2).2
        obtain ⟨more, depth', rest⟩ := ih (fewer.trans_le (Nat.le_of_lt_succ enough))
        dsimp only
        rw [run_behind]
        exact ⟨calls ++ more, max depth depth', .round next inside rest⟩

theorem exists_ends (e : Emitter) : ∃ calls depth, e.Ends (e.emit {}) calls depth := by
  obtain ⟨calls, depth, entry⟩ := e.exists_evaluates_block {} e.procedure.entry false
  unfold emit
  rw [run_bind]
  cases outcome : e.emitBlock e.procedure.entry false {} with
  | error =>
    rw [outcome] at entry
    exact ⟨calls, depth, .stops entry⟩
  | ok _ middle =>
    rw [outcome] at entry
    have fewer := (entry.of_fresh (by simp)).2
    obtain ⟨more, depth', pending⟩ := exists_clears e.procedure.blocks.length
      (fewer.trans_le (Traversal.unrendered_le_blocks e.procedure _))
    have ends := Ends.checks entry pending
    dsimp only
    rw [run_bind]
    cases later : e.emitPending e.procedure.blocks.length middle with
    | error | ok =>
      rw [later] at ends
      exact ⟨calls ++ more, max depth depth', ends⟩

/-- Rendering without any bound ends, and as `emit` does, whatever the procedure, its facts and its renderer are. -/
theorem emit_ends (e : Emitter) : (∀ recurse b braced, e.freshBlock recurse b braced =
      update (·.render b) >>= fun _ => (e.script b braced).play recurse) ∧
    (∃ calls depth, (∀ result calls' depth', e.Ends result calls' depth' ↔
        result = e.emit {} ∧ calls' = calls ∧ depth' = depth) ∧
      calls.Nodup ∧ calls ⊆ e.procedure.blockIds ∧ calls.length ≤ e.procedure.blocks.length ∧
      depth ≤ e.procedure.blocks.length ∧ (reached (e.emit {})).traversal.rendered = calls.reverse) ∧
    ∀ here b lines after, here.traversal.nextPending? = some b → e.emitBlock b false here = .ok lines after →
      b ∉ here.traversal.rendered ∧ b ∈ after.traversal.rendered ∧
        here.traversal.rendered ⊆ after.traversal.rendered := by
  refine ⟨e.freshBlock_eq_script, ?_, fun here b lines after => emitBlock_enlarges⟩
  obtain ⟨calls, depth, ends⟩ := e.exists_ends
  have renders := ends.renders
  refine ⟨calls, depth, fun result calls' depth' => ⟨ends.unique, ?_⟩, renders.nodup, renders.listed, renders.length_le,
    renders.depth.trans (Traversal.unrendered_le_blocks e.procedure _), by simpa using renders.rendered⟩
  rintro ⟨rfl, rfl, rfl⟩
  exact ends

end Emitter

end Reflow
