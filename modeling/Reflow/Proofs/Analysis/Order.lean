import Reflow.Proofs.Analysis

namespace Reflow.Procedure

variable {p : Procedure} {a b : BlockId} {i : Nat}

theorem isFeedback_iff_mem : p.analysis.isFeedback a b = true ↔ (a, b) ∈ (p.flow.search p.entry).feedback := by
  simp [Facts.isFeedback, analysis]

theorem position?_eq_some_iff : p.analysis.position? b = some i ↔ p.analysis.order[i]? = some b := by
  rw [Analysis.position?, List.idxOf?_eq_some_iff, List.getElem?_eq_some_iff]
  constructor
  · rintro ⟨bound, found, -⟩
    exact ⟨bound, found⟩
  · rintro ⟨bound, found⟩
    refine ⟨bound, found, fun j earlier same => ?_⟩
    have := order_nodup.getElem_inj_iff.1 (same.trans found.symm)
    omega

theorem position?_of_reachable (reach : p.Reachable b) :
    p.analysis.position? b = some (p.analysis.order.idxOf b) := by
  rw [position?_eq_some_iff]
  exact List.getElem?_idxOf (mem_order_iff.2 reach)

theorem isFeedback_iff_idxOf_le (reach : p.Reachable a) (edge : b ∈ p.succs a) :
    p.analysis.isFeedback a b = true ↔ p.analysis.order.idxOf b ≤ p.analysis.order.idxOf a := by
  rw [isFeedback_iff_mem, order_eq]
  exact Digraph.mem_feedback_iff flow_lists_reachable reach edge

def Onward (p : Procedure) (a b : BlockId) : Prop :=
  p.Reachable a ∧ b ∈ p.succs a ∧ p.analysis.isFeedback a b = false

theorem Onward.idxOf_lt (onward : p.Onward a b) : p.analysis.order.idxOf a < p.analysis.order.idxOf b := by
  obtain ⟨reach, edge, forward⟩ := onward
  by_contra back
  rw [(isFeedback_iff_idxOf_le reach edge).2 (Nat.le_of_not_lt back)] at forward
  simp at forward

theorem not_transGen_onward (b : BlockId) : ¬ Relation.TransGen p.Onward b b := by
  have later {a b : BlockId} (steps : Relation.TransGen p.Onward a b) :
      p.analysis.order.idxOf a < p.analysis.order.idxOf b := by
    induction steps with
    | single onward => exact onward.idxOf_lt
    | tail _ onward ih => exact ih.trans onward.idxOf_lt
  exact fun cycle => Nat.lt_irrefl _ (later cycle)

theorem exists_onward (reach : p.Reachable b) (inner : b ≠ p.entry) : ∃ a, p.Onward a b := by
  obtain ⟨before, after, split⟩ := List.append_of_mem (mem_order_iff.2 reach)
  rw [order_eq] at split
  obtain ⟨a, mem, edge, forward⟩ := Digraph.exists_tree_edge flow_lists_reachable split inner
  refine ⟨a, mem_order_iff.1 ?_, edge, ?_⟩
  · rw [order_eq, split]
    exact List.mem_append_left _ mem
  · rw [← Bool.not_eq_true, isFeedback_iff_mem]
    exact forward

/-- The order lists what can be reached, each block once and the entry first, and the feedback edges are the edges that
do not lead to a later block. -/
theorem analysis_order_feedback (p : Procedure) : p.analysis.order.Nodup ∧ (∀ b, b ∈ p.analysis.order ↔ p.Reachable b) ∧
    p.analysis.order.head? = some p.entry ∧
    (∀ b i, p.analysis.position? b = some i ↔ p.analysis.order[i]? = some b) ∧
    (∀ a b, p.Reachable a → b ∈ p.succs a → ∃ i j, p.analysis.position? a = some i ∧
      p.analysis.position? b = some j ∧ (p.analysis.isFeedback a b = true ↔ j ≤ i)) ∧
    (∀ b, ¬ Relation.TransGen p.Onward b b) ∧
    (∀ a b, p.analysis.isFeedback a b = true → b ∈ p.succs a ∧ p.Reachable a ∧ p.flow.Reaches b a) ∧
    (∀ a b, p.Reachable a → b ∈ p.succs a → p.Dominates b a → p.analysis.isFeedback a b = true) ∧
    ∀ b, p.Reachable b → b ≠ p.entry → ∃ a, p.Onward a b := by
  refine ⟨order_nodup, fun b => mem_order_iff, ?_, fun b i => position?_eq_some_iff, ?_, not_transGen_onward, ?_, ?_,
    fun b => exists_onward⟩
  · rw [order_eq]
    rfl
  · intro a b reach edge
    exact ⟨_, _, position?_of_reachable reach, position?_of_reachable (reach.succ edge),
      isFeedback_iff_idxOf_le reach edge⟩
  · intro a b feedback
    exact Digraph.search_feedback_cycle flow_lists_reachable (isFeedback_iff_mem.1 feedback)
  · intro a b reach edge dominates
    exact isFeedback_of_dominates reach edge dominates

end Reflow.Procedure
