import Reflow.Proofs.Trace.Functions

namespace Reflow

open Emission Relation

namespace Emitter

variable {e : Emitter} {t t' : Traversal} {b d : BlockId}

def DominatorsRendered (e : Emitter) (t : Traversal) : Prop :=
  ∀ b ∈ t.rendered, ∀ d, e.procedure.Dominates d b → d ∈ t.rendered

theorem Led.mem_rendered_of_dominates (analysed : e.facts = e.procedure.analysis.toFacts)
    (closed : e.DominatorsRendered t) (led : e.Led t b) (dominates : e.procedure.Dominates d b) (ne : d ≠ b) :
    d ∈ t.rendered := by
  rcases led with rfl | ⟨a, rendered, leads⟩
  · -- Only the entry dominates the entry.
    exact absurd (Digraph.Dominates.antisymm (.refl _) dominates (Digraph.Dominates.root_dominates d)) ne
  · rw [analysed] at leads
    exact closed a rendered d (dominates.of_leads ne leads)

section

variable (linked : e.procedure.Linked) (analysed : e.facts = e.procedure.analysis.toFacts)
include linked analysed

theorem Move.mem_rendered_of_begins (closed : e.DominatorsRendered t) (move : e.Move t t') (fresh : b ∉ t.rendered)
    (begun : b ∈ t'.rendered) (dominates : e.procedure.Dominates d b) (ne : d ≠ b) : d ∈ t.rendered :=
  ((move.begins fresh begun).2 linked).mem_rendered_of_dominates analysed closed dominates ne

theorem Move.dominatorsRendered (closed : e.DominatorsRendered t) (move : e.Move t t') : e.DominatorsRendered t' := by
  intro b begun d dominates
  have grown : t.rendered ⊆ t'.rendered := rendered_subset_of_moves (.single move)
  by_cases fresh : b ∈ t.rendered
  · exact grown (closed b fresh d dominates)
  · by_cases same : d = b
    · exact same ▸ begun
    · exact grown (move.mem_rendered_of_begins linked analysed closed fresh begun dominates same)

theorem dominatorsRendered_of_moves (moves : ReflTransGen e.Move {} t) : e.DominatorsRendered t := by
  induction moves with
  | refl => exact fun b mem => nomatch mem
  | tail _ move ih => exact move.dominatorsRendered linked analysed ih

end

end Emitter

namespace Program.FunctionOf

variable {f : Function}

/-- At the moment a block of a function begins to be rendered, the blocks that dominate it have begun before. -/
theorem WellFormed.dominators_rendered_first (wf : f.WellFormed) (base : Nat) (render : Renderer)
    (labels : Labels) (copies : Copies) (verbose : Bool) {before after : Progress}
    (next : [before, after] <:+: Emission.points (Emitter.emit {
      procedure := f.procedure base, facts := (f.procedure base).analysis.toFacts
      render, labels, copies, verbose }) {})
    {b : BlockId} (fresh : b ∉ before.traversal.rendered) (begins : b ∈ after.traversal.rendered)
    (d : BlockId) (dominates : (f.procedure base).Dominates d b) (ne : d ≠ b) :
    d ∈ before.traversal.rendered := by
  have linked := wf.linked base
  obtain ⟨moves, move⟩ := (Emitter.emit_runs _).of_adjacent next
  exact move.mem_rendered_of_begins linked rfl (Emitter.dominatorsRendered_of_moves linked rfl moves) fresh begins
    dominates ne

def spinning : Function where
  name := "spinning"
  args := ["c"]
  blocks :=
    [⟨"entry", [], [⟨none, .condbr 0 1 4⟩]⟩,
     ⟨"work", [], [⟨none, .condbr 0 2 3⟩]⟩,
     ⟨"left", [], [⟨none, .call "left" []⟩, ⟨none, .br 5⟩]⟩,
     ⟨"right", [], [⟨none, .call "right" []⟩, ⟨none, .br 5⟩]⟩,
     ⟨"exit", [], [⟨none, .ret none⟩]⟩,
     ⟨"spin", [], [⟨none, .call "spin" []⟩, ⟨none, .br 5⟩]⟩]

theorem spinning_wellFormed : spinning.WellFormed :=
  IsRead.wellFormed (.of_pieces
    ["spinning(%c) \x7b\n", "entry:\n condbr %c, ^work, ^exit\n", "work:\n condbr %c, ^left, ^right\n",
      "left:\n call @left\n br ^spin\n", "right:\n call @right\n br ^spin\n", "exit:\n ret\n",
      "spin:\n call @spin\n br ^spin\n\x7d\n"] (by decide +kernel))

theorem spinning_dominator_first : ∃ before after : Progress, [before, after] <:+: Emission.points (Emitter.emit {
      procedure := spinning.procedure 0, facts := (spinning.procedure 0).analysis.toFacts
      render := spinning.render, labels := { texts := [(5, "BB_LABEL_5")] }, copies := {}, verbose := false }) {} ∧
    5 ∉ before.traversal.rendered ∧ 5 ∈ after.traversal.rendered ∧ (spinning.procedure 0).Dominates 1 5 ∧
    1 ∈ before.traversal.rendered := by
  let points := Emission.points (Emitter.emit {
    procedure := spinning.procedure 0, facts := (spinning.procedure 0).analysis.toFacts
    render := spinning.render, labels := { texts := [(5, "BB_LABEL_5")] }, copies := {}, verbose := false }) {}
  have rendered : ((points.drop 11).take 2).map (·.traversal.rendered) = [[4, 3, 2, 1, 0], [5, 4, 3, 2, 1, 0]] := by
    decide +kernel
  obtain ⟨before, rest, split, first, last⟩ := List.map_eq_cons_iff.1 rendered
  obtain ⟨after, rfl, second⟩ := List.map_eq_singleton_iff.1 last
  have next : [before, after] <:+: points := by
    have begins := List.take_prefix 2 (points.drop 11)
    rw [split] at begins
    exact begins.isInfix.trans (List.drop_suffix 11 points).isInfix
  have fresh : 5 ∉ before.traversal.rendered := by simp [first]
  have begins : 5 ∈ after.traversal.rendered := by simp [second]
  have above : (spinning.procedure 0).Dominates 1 5 :=
    (Procedure.idom?_eq_some_iff.1 (show (spinning.procedure 0).analysis.idom? 5 = some 1 by decide +kernel)).dominates
  exact ⟨before, after, next, fresh, begins, above,
    spinning_wellFormed.dominators_rendered_first 0 _ _ _ _ next fresh begins 1 above (by decide)⟩

end Program.FunctionOf

end Reflow
