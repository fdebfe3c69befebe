import Reflow.Proofs.Graph.Paths

namespace Reflow.Digraph

variable {α : Type} {g : Digraph α} {root a b d e : α}

def Dominates (g : Digraph α) (root d a : α) : Prop :=
  ∀ nodes, g.Path root a nodes → d ∈ nodes

structure ImmediatelyDominates (g : Digraph α) (root d a : α) : Prop where
  reached : g.Reaches root a
  ne : d ≠ a
  dominates : g.Dominates root d a
  closest : ∀ e, e ≠ a → g.Dominates root e a → g.Dominates root e d

namespace Dominates

theorem refl (a : α) : g.Dominates root a a :=
  fun _ path => path.right_mem

theorem root_dominates (a : α) : g.Dominates root root a :=
  fun _ path => path.left_mem

theorem of_edge (dominates : g.Dominates root d b) (ne : d ≠ b) (edge : b ∈ g.succs a) : g.Dominates root d a := by
  intro nodes path
  have visited := dominates _ (path.snoc edge)
  simpa [ne] using visited

variable [DecidableEq α]

theorem trans (first : g.Dominates root d e) (second : g.Dominates root e a) : g.Dominates root d a := by
  intro nodes path
  obtain ⟨before, after, toE, fromE, rfl, -⟩ := path.split_first (second _ path)
  have visited := first _ toE
  rcases List.mem_append.1 visited with visited | visited
  · exact List.mem_append_left _ visited
  · obtain rfl : d = e := by simpa using visited
    exact List.mem_append_right _ fromE.left_mem

theorem antisymm (reached : g.Reaches root a) (first : g.Dominates root d a)
    (second : g.Dominates root a d) : d = a := by
  by_contra ne
  obtain ⟨nodes, path⟩ := reached
  obtain ⟨before, -, toA, -, -, avoids⟩ := path.split_first path.right_mem
  obtain ⟨before', after, toD, fromD, split, -⟩ := toA.split_first (first _ toA)
  have back : a ∈ before' := by simpa [Ne.symm ne] using second _ toD
  -- The way to `d` ends before the first `a`, so it cannot visit `a`.
  rcases List.append_eq_append_iff.1 split with ⟨rest, rfl, last⟩ | ⟨rest, rfl, -⟩
  · have filled := fromD.length_pos
    have sizes := congrArg List.length last
    obtain rfl : rest = [] := List.length_eq_zero_iff.1 (by
      rw [List.length_singleton, List.length_append] at sizes; omega)
    exact avoids (by simpa using back)
  · exact avoids (List.mem_append_left _ back)

theorem total (reached : g.Reaches root a) (first : g.Dominates root d a)
    (second : g.Dominates root e a) : g.Dominates root d e ∨ g.Dominates root e d := by
  by_contra neither
  simp only [Dominates, not_or, not_forall] at neither
  obtain ⟨⟨toE, pathE, noD⟩, toD, pathD, noE⟩ := neither
  obtain ⟨nodes, path⟩ := reached
  obtain ⟨-, after, -, fromD, -, lastD⟩ := path.split_last (first _ path)
  by_cases later : e ∈ after
  · obtain ⟨before, after', -, fromE, split, -⟩ := fromD.split_last (.tail _ later)
    obtain ⟨around, whole, members⟩ := pathE.trans fromE
    have visited := (members d).1 (first _ whole)
    refine visited.elim noD fun visited => ?_
    have ne : d ≠ e := fun same => noD (same ▸ pathE.right_mem)
    have tail : d ∈ after' := by simpa [ne] using visited
    cases before with
    | nil => exact ne (by simpa using congrArg List.head? split)
    | cons =>
      obtain ⟨rfl, rfl⟩ := List.cons.inj split
      exact lastD (by simp [tail])
  · obtain ⟨around, whole, members⟩ := pathD.trans fromD
    have visited := (members e).1 (second _ whole)
    refine visited.elim noE fun visited => ?_
    have ne : e ≠ d := fun same => noE (same ▸ pathD.right_mem)
    exact later (by simpa [ne] using visited)

end Dominates

theorem exists_closest [DecidableEq α] (reached : g.Reaches root a) (above : List α) (some : above ≠ [])
    (dominate : ∀ d ∈ above, g.Dominates root d a) : ∃ d ∈ above, ∀ e ∈ above, g.Dominates root e d := by
  induction above with
  | nil => exact absurd rfl some
  | cons d above ih =>
    by_cases last : above = []
    · subst last
      exact ⟨d, by simp, by simpa using Dominates.refl d⟩
    · obtain ⟨c, mem, closest⟩ := ih last fun e later => dominate e (by simp [later])
      rcases Dominates.total reached (dominate d (by simp)) (dominate c (by simp [mem])) with
        below | below
      · exact ⟨c, by simp [mem], by simpa [below] using closest⟩
      · refine ⟨d, by simp, fun e later => ?_⟩
        rcases List.mem_cons.1 later with rfl | later
        · exact .refl e
        · exact (closest e later).trans below

theorem exists_immediatelyDominates [DecidableEq α] (reached : g.Reaches root a) (ne : a ≠ root) :
    ∃ d, g.ImmediatelyDominates root d a := by
  classical
  obtain ⟨nodes, path⟩ := reached
  have above (d : α) : d ∈ nodes.filter (fun d => d ≠ a ∧ g.Dominates root d a) ↔ d ≠ a ∧ g.Dominates root d a := by
    simp only [List.mem_filter, decide_eq_true_eq, and_iff_right_iff_imp]
    exact fun strict => strict.2 _ path
  obtain ⟨d, mem, closest⟩ := exists_closest ⟨nodes, path⟩ (nodes.filter fun d => d ≠ a ∧ g.Dominates root d a)
    (List.ne_nil_of_mem ((above root).2 ⟨Ne.symm ne, .root_dominates a⟩))
    (fun d mem => ((above d).1 mem).2)
  obtain ⟨differs, dominates⟩ := (above d).1 mem
  exact ⟨d, ⟨nodes, path⟩, differs, dominates, fun e differs dominates => closest e ((above e).2 ⟨differs, dominates⟩)⟩

theorem ImmediatelyDominates.eq_or_eq_of_between [DecidableEq α] (idom : g.ImmediatelyDominates root d a)
    (between : ∀ nodes, g.Path d a nodes → b ∈ nodes) : b = d ∨ b = a := by
  by_contra neither
  obtain ⟨same, ne⟩ := not_or.1 neither
  obtain ⟨nodes, path⟩ := idom.reached
  have dominatesA : g.Dominates root b a := by
    intro nodes path
    obtain ⟨before, after, -, fromD, rfl, -⟩ := path.split_first (idom.dominates _ path)
    exact List.mem_append_right _ (between _ fromD)
  have dominatesD := idom.closest b ne dominatesA
  -- The first way to `b` and the last way on from it both avoid `d`.
  obtain ⟨before, -, toB, -, -, firstB⟩ := path.split_first (dominatesA _ path)
  obtain ⟨-, after, -, fromB, -, lastB⟩ := path.split_last (dominatesA _ path)
  obtain ⟨around, whole, members⟩ := toB.trans fromB
  rcases (members d).1 (idom.dominates _ whole) with visited | visited
  · obtain ⟨before', after', toD, fromD, split, -⟩ := toB.split_first visited
    have earlier : b ∈ before' := by simpa [same] using dominatesD _ toD
    rcases List.append_eq_append_iff.1 split with ⟨rest, rfl, end_⟩ | ⟨rest, rfl, -⟩
    · have filled := fromD.length_pos
      have sizes := congrArg List.length end_
      obtain rfl : rest = [] := List.length_eq_zero_iff.1 (by
        rw [List.length_singleton, List.length_append] at sizes; omega)
      exact firstB (by simpa using earlier)
    · exact firstB (List.mem_append_left _ earlier)
  · obtain ⟨before', after', -, fromD, split, -⟩ := fromB.split_last visited
    have later : b ∈ after' := by simpa [same] using between _ fromD
    cases before' with
    | nil => exact same (by simpa using congrArg List.head? split)
    | cons =>
      obtain ⟨rfl, rfl⟩ := List.cons.inj split
      exact lastB (by simp [later])

theorem ImmediatelyDominates.eq_of_succs_eq [DecidableEq α] (idom : g.ImmediatelyDominates root d a)
    (only : ∀ c ∈ g.succs d, c = b) : b = a := by
  have between (nodes : List α) (way : g.Path d a nodes) : b ∈ nodes := by
    cases way with
    | single => exact absurd rfl idom.ne
    | step edge tail => exact only _ edge ▸ .tail _ tail.left_mem
  rcases idom.eq_or_eq_of_between between with rfl | same
  · -- A node whose only edge leads to itself is the last one of every path.
    obtain ⟨nodes, path⟩ := idom.reached
    obtain ⟨-, after, -, fromB, -, last⟩ := path.split_last (idom.dominates _ path)
    cases fromB with
    | single => exact absurd rfl idom.ne
    | step edge tail => exact absurd (only _ edge ▸ tail.left_mem) last
  · exact same

theorem Dominates.reaches [DecidableEq α] (dominates : g.Dominates root d a)
    (reached : g.Reaches root a) : g.Reaches root d := by
  obtain ⟨nodes, path⟩ := reached
  obtain ⟨before, -, toD, -, -, -⟩ := path.split_first (dominates _ path)
  exact ⟨_, toD⟩

theorem ImmediatelyDominates.unique [DecidableEq α] (first : g.ImmediatelyDominates root d a)
    (second : g.ImmediatelyDominates root e a) : d = e := by
  have above : g.Reaches root e := second.dominates.reaches second.reached
  exact Dominates.antisymm above (second.closest d first.ne first.dominates)
    (first.closest e second.ne second.dominates)

theorem exists_immediatelyDominated [DecidableEq α] (reached : g.Reaches root a) (dominates : g.Dominates root d a)
    (ne : d ≠ a) : ∃ c, g.ImmediatelyDominates root d c ∧ g.Dominates root c a := by
  obtain ⟨nodes, path⟩ := reached
  -- The immediate dominator is met on a shorter path.
  induction length : nodes.length using Nat.strong_induction_on generalizing a nodes with
  | _ n ih =>
    have inner : a ≠ root := by
      rintro rfl
      exact ne (by simpa using dominates _ (.single a))
    obtain ⟨e, idom⟩ := exists_immediatelyDominates ⟨nodes, path⟩ inner
    by_cases closest : d = e
    · exact ⟨a, closest ▸ idom, .refl a⟩
    · obtain ⟨before, after, toE, fromE, split, -⟩ := path.split_first (idom.dominates _ path)
      have shorter : (before ++ [e]).length < n := by
        cases fromE with
        | single => exact absurd rfl idom.ne
        | step edge rest =>
          have := rest.length_pos
          simp only [← length, split, List.length_append, List.length_cons, List.length_nil]
          omega
      obtain ⟨c, child, above⟩ :=
        ih _ shorter (idom.closest d ne dominates) closest _ toE rfl
      exact ⟨c, child, above.trans idom.dominates⟩

theorem ImmediatelyDominates.eq_of_dominates [DecidableEq α] {c : α} (first : g.ImmediatelyDominates root d b)
    (second : g.ImmediatelyDominates root d c) (reached : g.Reaches root a) (above : g.Dominates root b a)
    (above' : g.Dominates root c a) : b = c := by
  have below {b c : α} (first : g.ImmediatelyDominates root d b)
      (second : g.ImmediatelyDominates root d c) (above : g.Dominates root b c) : b = c := by
    by_contra ne
    exact first.ne (Dominates.antisymm first.reached first.dominates (second.closest b ne above))
  rcases above.total reached above' with above | above
  · exact below first second above
  · exact (below second first above).symm

end Reflow.Digraph
