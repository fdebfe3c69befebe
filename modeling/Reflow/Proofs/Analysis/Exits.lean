import Reflow.Proofs.Analysis

namespace Reflow.Procedure

variable {p : Procedure} {a b j k : BlockId} {nodes : List BlockId}

def ExitPath (p : Procedure) (b : BlockId) (nodes : List BlockId) : Prop :=
  ∃ exit, p.flow.Path b exit nodes ∧ p.succs exit = []

def OnEveryExitPath (p : Procedure) (j b : BlockId) : Prop :=
  ∀ nodes, p.ExitPath b nodes → j ∈ nodes

theorem ExitPath.backflow (path : p.ExitPath b nodes) (reach : p.Reachable b) :
    ∃ back, p.backflow.Path none (some b) back ∧ ∀ c, some c ∈ back → c ∈ nodes := by
  obtain ⟨exit, way, last⟩ := path
  obtain ⟨back, backward, visited⟩ := backflow_of_path reach way
  have reached : p.Reachable exit := reach.trans ⟨nodes, way⟩
  refine ⟨none :: back, .step (mem_backflow_none.2 ⟨reached, last⟩) backward, fun c mem => ?_⟩
  exact visited c ((List.mem_cons.1 mem).resolve_left (by simp))

theorem exitPath_of_backflow {back : List (Option BlockId)} (path : p.backflow.Path none (some b) back) :
    ∃ nodes, p.ExitPath b nodes ∧ ∀ c ∈ nodes, some c ∈ back := by
  cases path with
  | @step _ next _ rest edge backward =>
    cases next with
    | none => exact absurd edge (none_not_mem_backflow _)
    | some exit =>
      obtain ⟨way, forth, visited⟩ := path_of_backflow backward
      exact ⟨way, ⟨exit, forth, (mem_backflow_none.1 edge).2⟩, fun c mem => .tail _ (visited c mem)⟩

theorem canExit_iff : p.CanExit b ↔ p.Reachable b ∧ ∃ nodes, p.ExitPath b nodes := by
  constructor
  · intro exits
    obtain ⟨back, path⟩ := id exits
    obtain ⟨nodes, way, -⟩ := exitPath_of_backflow path
    exact ⟨exits.reachable, nodes, way⟩
  · rintro ⟨reach, nodes, way⟩
    obtain ⟨back, path, -⟩ := way.backflow reach
    exact ⟨back, path⟩

theorem OnEveryExitPath.postDominates (every : p.OnEveryExitPath j b) : p.PostDominates j b := by
  intro back path
  obtain ⟨nodes, way, visited⟩ := exitPath_of_backflow path
  exact visited j (every nodes way)

theorem PostDominates.onEveryExitPath (dominates : p.PostDominates j b) (reach : p.Reachable b) :
    p.OnEveryExitPath j b := by
  intro nodes way
  obtain ⟨back, path, visited⟩ := way.backflow reach
  exact visited j (dominates back path)

theorem ipdom?_eq_some_iff_exitPath : p.analysis.ipdom? b = some j ↔
    p.Reachable b ∧ (∃ nodes, p.ExitPath b nodes) ∧ j ≠ b ∧ p.OnEveryExitPath j b ∧
      ∀ k, k ≠ b → p.OnEveryExitPath k b → p.OnEveryExitPath k j := by
  rw [ipdom?_eq_some_iff]
  constructor
  · rintro ⟨reached, ne, dominates, closest⟩
    obtain ⟨reach, way⟩ := canExit_iff.1 reached
    have behind : p.CanExit j := PostDominates.canExit dominates reached
    refine ⟨reach, way, by simpa using ne, PostDominates.onEveryExitPath dominates reach, ?_⟩
    intro k other every
    have above : p.PostDominates k j := closest (some k) (by simpa using other) every.postDominates
    exact above.onEveryExitPath behind.reachable
  · rintro ⟨reach, way, ne, every, closest⟩
    refine ⟨canExit_iff.2 ⟨reach, way⟩, by simpa using ne, every.postDominates, ?_⟩
    intro node other dominates
    cases node with
    | none => exact fun back path => path.left_mem
    | some k =>
      have here : p.OnEveryExitPath k b := PostDominates.onEveryExitPath dominates reach
      exact (closest k (by simpa using other) here).postDominates

/-- The immediate post-dominator of a block lies on all its paths to exits, in front of every other such block. -/
theorem analysis_postDominator (p : Procedure) (b : BlockId) : (∀ j, p.analysis.ipdom? b = some j ↔
      p.Reachable b ∧ (∃ nodes, p.ExitPath b nodes) ∧ j ≠ b ∧ p.OnEveryExitPath j b ∧
        ∀ k, k ≠ b → p.OnEveryExitPath k b → p.OnEveryExitPath k j) ∧
    (p.analysis.ipdom? b = none ↔
      ¬ p.Reachable b ∨ (¬ ∃ nodes, p.ExitPath b nodes) ∨ ∀ j, j ≠ b → ¬ p.OnEveryExitPath j b) := by
  refine ⟨fun j => ipdom?_eq_some_iff_exitPath, ?_, ?_⟩
  · intro none
    by_contra otherwise
    push Not at otherwise
    obtain ⟨reach, way, j, ne, every⟩ := otherwise
    obtain ⟨join, found, -⟩ := every.postDominates.exists_ipdom ne (canExit_iff.2 ⟨reach, way⟩)
    simp [none] at found
  · intro reason
    by_contra some
    obtain ⟨j, found⟩ := Option.ne_none_iff_exists'.1 some
    obtain ⟨reach, way, ne, every, -⟩ := ipdom?_eq_some_iff_exitPath.1 found
    rcases reason with unreachable | endless | apart
    · exact unreachable reach
    · exact endless way
    · exact apart j ne every

end Reflow.Procedure
