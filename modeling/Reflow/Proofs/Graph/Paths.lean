import Mathlib.Tactic
import Reflow.Graph.Basic

namespace Reflow.Digraph

variable {α : Type} {g : Digraph α}

inductive Path (g : Digraph α) : α → α → List α → Prop
  | single (a : α) : Path g a a [a]
  | step {a b c : α} {nodes : List α} (edge : b ∈ g.succs a) (rest : Path g b c nodes) :
      Path g a c (a :: nodes)

def Reaches (g : Digraph α) (a b : α) : Prop :=
  ∃ nodes, g.Path a b nodes

namespace Path

variable {a b c d : α} {nodes before after : List α}

theorem left_mem (path : g.Path a b nodes) : a ∈ nodes := by
  cases path <;> simp

theorem right_mem (path : g.Path a b nodes) : b ∈ nodes := by
  induction path with
  | single a => simp
  | step _ _ ih => exact .tail _ ih

theorem length_pos (path : g.Path a b nodes) : 0 < nodes.length :=
  List.length_pos_of_mem path.left_mem

theorem trans (first : g.Path a b before) (second : g.Path b c after) :
    ∃ nodes, g.Path a c nodes ∧ ∀ x, x ∈ nodes ↔ x ∈ before ∨ x ∈ after := by
  induction first with
  | single a =>
    refine ⟨after, second, fun x => ?_⟩
    simp only [List.mem_singleton, iff_or_self]
    rintro rfl
    exact second.left_mem
  | step edge _ ih =>
    obtain ⟨nodes, path, members⟩ := ih second
    refine ⟨_, .step edge path, fun x => ?_⟩
    simp only [List.mem_cons, members, or_assoc]

section

variable (path : g.Path a b nodes)
include path

theorem snoc (edge : c ∈ g.succs b) : g.Path a c (nodes ++ [c]) := by
  induction path with
  | single a => exact .step edge (.single c)
  | step first _ ih => exact .step first (ih edge)

theorem split_first [DecidableEq α] (visited : d ∈ nodes) :
    ∃ before after, g.Path a d (before ++ [d]) ∧ g.Path d b after ∧ nodes = before ++ after ∧ d ∉ before := by
  induction path with
  | single a =>
    obtain rfl : d = a := by simpa using visited
    exact ⟨[], [d], .single d, .single d, rfl, by simp⟩
  | @step a e c rest edge tail ih =>
    by_cases here : d = a
    · subst here
      exact ⟨[], _, .single d, .step edge tail, rfl, by simp⟩
    · obtain ⟨before, after, first, second, rfl, avoids⟩ :=
        ih ((List.mem_cons.1 visited).resolve_left here)
      exact ⟨a :: before, after, .step edge first, second, rfl, by simp [here, avoids]⟩

theorem split_last [DecidableEq α] (visited : d ∈ nodes) :
    ∃ before after, g.Path a d (before ++ [d]) ∧ g.Path d b (d :: after) ∧
      nodes = before ++ d :: after ∧ d ∉ after := by
  induction path with
  | single a =>
    obtain rfl : d = a := by simpa using visited
    exact ⟨[], [], .single d, .single d, rfl, by simp⟩
  | @step a e c rest edge tail ih =>
    by_cases later : d ∈ rest
    · obtain ⟨before, after, first, second, rfl, avoids⟩ := ih later
      exact ⟨a :: before, after, .step edge first, second, rfl, avoids⟩
    · obtain rfl := (List.mem_cons.1 visited).resolve_right later
      exact ⟨[], rest, .single d, .step edge tail, rfl, later⟩

theorem eq_single_or_last :
    (a = b ∧ nodes = [b]) ∨ ∃ c before, g.Path a c before ∧ b ∈ g.succs c ∧ nodes = before ++ [b] := by
  induction path with
  | single a => exact .inl ⟨rfl, rfl⟩
  | @step a _ _ _ edge _ ih =>
    right
    obtain ⟨rfl, rfl⟩ | ⟨d, before, first, final, rfl⟩ := ih
    · exact ⟨a, [a], .single a, edge, rfl⟩
    · exact ⟨d, a :: before, .step edge first, final, rfl⟩

theorem forall_mem {property : α → Prop} (start : property a) (along : ∀ x, property x → ∀ y ∈ g.succs x, property y) :
    ∀ x ∈ nodes, property x := by
  induction path with
  | single a => simpa using start
  | step edge _ ih =>
    intro x mem
    rcases List.mem_cons.1 mem with rfl | mem
    · exact start
    · exact ih (along _ start _ edge) x mem

end

end Path

theorem Path.exists_nodup [DecidableEq α] {a b : α} {nodes : List α} (path : g.Path a b nodes) :
    ∃ short, g.Path a b short ∧ short.Nodup ∧ short ⊆ nodes := by
  induction path with
  | single a => exact ⟨[a], .single a, by simp, .refl _⟩
  | @step a _ _ _ edge tail ih =>
    obtain ⟨short, rest, nodup, subset⟩ := ih
    by_cases again : a ∈ short
    · obtain ⟨before, after, -, last, split, avoids⟩ := rest.split_last again
      refine ⟨a :: after, last, ?_, fun x mem => ?_⟩
      · rw [split] at nodup
        exact (List.nodup_append.1 nodup).2.1
      · rcases List.mem_cons.1 mem with rfl | mem
        · exact .head _
        · exact .tail _ (subset (by simp [split, mem]))
    · refine ⟨a :: short, .step edge rest, List.nodup_cons.2 ⟨again, nodup⟩, ?_⟩
      exact List.cons_subset_cons a subset

theorem Reaches.refl (a : α) : g.Reaches a a :=
  ⟨[a], .single a⟩

theorem Reaches.trans {a b c : α} (first : g.Reaches a b) (second : g.Reaches b c) : g.Reaches a c := by
  obtain ⟨_, first⟩ := first
  obtain ⟨_, second⟩ := second
  obtain ⟨nodes, path, -⟩ := first.trans second
  exact ⟨nodes, path⟩

theorem Reaches.of_edge {a b : α} (edge : b ∈ g.succs a) : g.Reaches a b :=
  ⟨[a, b], .step edge (.single b)⟩

end Reflow.Digraph
