import Reflow.Proofs.Trace.Derivation

namespace Reflow

open Emission Relation Traversal

namespace Emitter

variable {e : Emitter} {fuel : Nat} {b : BlockId} {braced : Bool} {here after : Progress} {lines : List Line}

theorem emitWithin_of_rendered (rendered : b ∈ here.traversal.rendered)
    (done : e.emitWithin fuel b braced here = .ok lines after) : after = here := by
  unfold emitWithin at done
  split at done
  · cases done
  · rw [run_bind, traversal, run, run] at done
    dsimp only at done
    rw [if_pos (isRendered_iff.2 rendered)] at done
    exact (EStateM.Result.ok.inj done).2.symm

theorem freshBlock_of_emitWithin (listed : b ∈ e.procedure.blockIds) (fresh : b ∉ here.traversal.rendered)
    (runs : e.Runs (e.emitWithin (fuel + 1) b braced) here) :
    e.Runs (e.freshBlock (e.emitWithin fuel) b braced) here := by
  unfold emitWithin at runs
  rw [if_neg (not_not.2 listed)] at runs
  change e.Runs (if here.traversal.isRendered b then _ else _) here at runs
  rwa [if_neg (by rwa [isRendered_iff])] at runs

theorem emitWithin_bind_ne_change (e : Emitter) (fuel : Nat) (b : BlockId) (braced : Bool) {α : Type}
    {action : Progress → Progress} {next : Emission α} (after : List Line → Emission α) :
    e.emitWithin fuel b braced >>= after ≠ .change action next := by
  intro same
  unfold emitWithin at same
  split at same
  · cases same
  · cases same

theorem rendering_restores (enough : here.traversal.unrendered e.procedure ≤ fuel) (sound : e.Sound here.traversal)
    (runs : e.Runs (e.emitWithin fuel b braced) here) (done : e.emitWithin fuel b braced here = .ok lines after) :
    Task.Restores (.block b braced) here.traversal after.traversal ∧ here.traversal.Returns after.traversal ∧
      e.Claims none here.traversal after.traversal := by
  by_cases rendered : b ∈ here.traversal.rendered
  · obtain rfl := emitWithin_of_rendered rendered done
    exact ⟨⟨rfl, rfl⟩, sound.apart.returns rfl rfl, .of_eq sound.apart rfl rfl⟩
  · have listed : b ∈ e.procedure.blockIds := by
      by_contra missing
      unfold emitWithin at done
      rw [if_pos missing] at done
      cases done
    obtain ⟨fuel, rfl⟩ : ∃ less, fuel = less + 1 := by
      have less := Traversal.unrendered_render_lt listed rendered
      exact Nat.exists_eq_succ_of_ne_zero (by omega)
    have begins : e.Move here.traversal (here.traversal.render b) := (freshBlock_of_emitWithin listed rendered runs).1
    obtain ⟨free, led⟩ := begins.begins rendered (mem_addNew.2 (.inl rfl))
    have lays := ((e.emitWithin_guards _ b braced here sound enough free rendered led).of_ok done).lays
    exact ⟨lays.restores, lays.settles free sound.apart, lays.claims free sound.apart sound.backed⟩

/-- An emission comes, with some progress, to render a block: the entry, a pending block, or one that the rendering of
another block leads to. -/
inductive ComesTo (e : Emitter) : Nat → BlockId → Bool → Progress → Prop
  | entry : ComesTo e e.procedure.blocks.length e.procedure.entry false {}
  | pending {rounds : Nat} {lines : List Line} {here : Progress} {b : BlockId}
      (drives : e.drive rounds {} = .ok lines here) (next : here.traversal.nextPending? = some b) :
      ComesTo e e.procedure.blocks.length b false here
  | nested {fuel : Nat} {b x : BlockId} {braced braced' : Bool} {here there : Progress}
      (outer : ComesTo e (fuel + 1) b braced here) (listed : b ∈ e.procedure.blockIds)
      (fresh : b ∉ here.traversal.rendered)
      (calls : Calls (e.emitWithin fuel x braced') there (e.freshBlock (e.emitWithin fuel) b braced) here) :
      ComesTo e fuel x braced' there

theorem ComesTo.runs (comes : e.ComesTo fuel b braced here) :
    here.traversal.unrendered e.procedure ≤ fuel ∧ e.Sound here.traversal ∧
      e.Runs (e.emitWithin fuel b braced) here := by
  induction comes with
  | entry =>
    exact ⟨Traversal.unrendered_le_blocks e.procedure {}, .empty e,
      (emitBlock_follows (.empty e) rfl (by simp) false fun _ => .inl rfl).makes⟩
  | @pending rounds _ _ b drives next =>
    have follows := e.drive_follows rounds
    have moves := follows.makes.moves_of_ok drives
    have sound := (Sound.empty e).of_moves moves
    obtain ⟨jumped, fresh⟩ := Traversal.mem_of_nextPending? next
    refine ⟨Traversal.unrendered_le_blocks e.procedure _, sound, ?_⟩
    refine (emitBlock_follows sound (follows.of_ok drives).1 fresh false fun linked => ?_).makes
    exact led_of_mem_jumpTargets linked (by simp) moves b jumped
  | @nested fuel b x _ braced' _ _ _ listed fresh calls ih =>
    obtain ⟨enough, sound, runs⟩ := ih
    obtain ⟨begins, rest⟩ := freshBlock_of_emitWithin listed fresh runs
    -- The call is made behind the rendering of `b`, so it has one block less before it.
    have later := calls.of_change (emitWithin_bind_ne_change e fuel x braced')
    obtain ⟨moves, inner⟩ := later.makes rest
    have grown := rendered_subset_of_moves moves
    have less := Traversal.unrendered_lt listed fresh (List.Subset.trans (grows_render _ b).rendered grown)
      (grown (mem_addNew.2 (.inl rfl)))
    exact ⟨by omega, (begins.sound sound).of_moves moves, inner⟩

/-- At every point of an emission no block is both set aside and rendered. A rendering in it that gives lines leaves the
hints, the open loops and the joins set aside as it found them, apart from joins that are claimed and rendered in it. -/
theorem emit_discipline (e : Emitter) :
    (∀ point ∈ e.emit.points {}, ∀ b, point.traversal.isDeferred b = true → point.traversal.isRendered b = false) ∧
    (∀ fuel b braced here lines after, e.ComesTo fuel b braced here →
      e.emitWithin fuel b braced here = .ok lines after →
      after.traversal.hints = here.traversal.hints ∧ after.traversal.openExits = here.traversal.openExits ∧
      after.traversal.frontier = here.traversal.frontier.filter (fun entry => !after.traversal.isRendered entry.1) ∧
      ∀ join, here.traversal.isDeferred join = true → after.traversal.isRendered join = true →
        after.traversal.isClaimed join = true ∧ here.traversal.isClaimed join = false) ∧
    (∀ rounds lines after, e.drive rounds {} = .ok lines after → after.traversal.frontier = []) ∧
    ∀ join b after, e.emit {} = .error (.joinRendered join b) after → e.Given (.joinRendered join b) := by
  refine ⟨fun point mem b aside => ?_, fun fuel b braced here lines after comes done => ?_,
    fun rounds lines after done => ?_, fun join b after failed => e.emit_runs.allowed_of_error failed join b rfl⟩
  · obtain ⟨depth, listed⟩ := isDeferred_iff.1 aside
    have sound := (Sound.empty e).of_moves (e.emit_runs.moves_to mem)
    exact decide_eq_false (sound.apart _ listed)
  · obtain ⟨enough, sound, runs⟩ := comes.runs
    obtain ⟨⟨exits, hints⟩, returns, claims⟩ := rendering_restores enough sound runs done
    refine ⟨hints, exits, ?_, fun join aside rendered => ?_⟩
    · rw [returns]
      exact List.filter_congr fun entry _ => by simp [isRendered]
    · obtain ⟨claimed, new⟩ := claims.taken join aside (isRendered_iff.1 rendered)
      exact ⟨decide_eq_true claimed, decide_eq_false new⟩
  · exact ((e.drive_follows rounds).of_ok done).1

end Emitter

end Reflow
