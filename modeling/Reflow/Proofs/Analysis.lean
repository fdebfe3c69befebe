import Reflow.Analysis
import Reflow.Proofs.Graph.Dominators
import Reflow.Proofs.Graph.PostOrder

namespace Reflow

namespace Ascending

variable {α : Type} {lt : α → α → Bool}

theorem mem_insert (tight : ∀ a b, lt a b = false → lt b a = false → a = b) (a b : α) (as : List α) :
    b ∈ insert lt a as ↔ b = a ∨ b ∈ as := by
  induction as with
  | nil => simp [insert]
  | cons c as ih =>
    rw [insert]
    split
    · simp
    · rename_i notBefore
      split
      · simp only [List.mem_cons, ih]
        tauto
      · rename_i notAfter
        obtain rfl : a = c := tight a c (by simpa using notBefore) (by simpa using notAfter)
        simp

theorem mem_ofList (tight : ∀ a b, lt a b = false → lt b a = false → a = b) (a : α) (as : List α) :
    a ∈ ofList lt as ↔ a ∈ as := by
  induction as with
  | nil => simp [ofList]
  | cons b as ih =>
    rw [ofList] at ih
    rw [ofList, List.foldr_cons, mem_insert tight, ih, List.mem_cons]

@[simp]
theorem mem_nats (n : Nat) (ns : List Nat) : n ∈ nats ns ↔ n ∈ ns := by
  refine mem_ofList (fun a b => ?_) n ns
  simp only [decide_eq_false_iff_not]
  omega

@[simp]
theorem mem_pairs (pair : Nat × Nat) (ps : List (Nat × Nat)) : pair ∈ pairs ps ↔ pair ∈ ps := by
  refine mem_ofList (fun a b => ?_) pair ps
  obtain ⟨a, a'⟩ := a
  obtain ⟨b, b'⟩ := b
  simp only [ltPair, Bool.or_eq_false_iff, Bool.and_eq_false_iff, decide_eq_false_iff_not,
    beq_eq_false_iff_ne, Prod.mk.injEq]
  omega

end Ascending

theorem eraseDups_nodup {α : Type} [DecidableEq α] (as : List α) : as.eraseDups.Nodup := by
  induction length : as.length using Nat.strong_induction_on generalizing as with
  | _ n ih =>
    cases as with
    | nil => simp
    | cons a as =>
      rw [List.eraseDups_cons, List.nodup_cons]
      refine ⟨by simp [List.mem_eraseDups], ih _ ?_ _ rfl⟩
      have := List.length_filter_le (fun b => !b == a) as
      simp only [List.length_cons] at length
      omega

theorem eraseDups_of_nodup {α : Type} [DecidableEq α] {as : List α} (nodup : as.Nodup) : as.eraseDups = as := by
  induction as with
  | nil => rfl
  | cons a as ih =>
    obtain ⟨absent, rest⟩ := List.nodup_cons.1 nodup
    have kept : as.filter (fun b => !b == a) = as := by
      rw [List.filter_eq_self]
      intro b mem
      simpa using fun same : b = a => absent (same ▸ mem)
    rw [List.eraseDups_cons, kept, ih rest]

theorem lookup_map_pair {α β : Type} [BEq α] [LawfulBEq α] (f : α → β) (as : List α) (a : α) :
    (as.map fun b => (b, f b)).lookup a = if a ∈ as then some (f a) else none := by
  classical
  induction as with
  | nil => simp
  | cons b as ih =>
    by_cases same : a = b
    · subst same
      simp
    · have differs : (a == b) = false := by simpa using same
      simp [List.lookup_cons, differs, ih, same]

namespace Procedure

variable {p : Procedure} {a b d : BlockId}

theorem succs_eq_of_block? {block : Block} (found : p.block? b = some block) : p.succs b = block.succs := by
  simp [succs, found]

theorem exists_block_of_succs (some : p.succs b ≠ []) : ∃ block ∈ p.blocks, block.id = b ∧ p.succs b = block.succs := by
  cases found : p.block? b with
  | none => simp [succs, found] at some
  | some block =>
    refine ⟨block, List.mem_of_find?_eq_some found, ?_, succs_eq_of_block? found⟩
    simpa using List.find?_some found

def Reachable (p : Procedure) (b : BlockId) : Prop :=
  p.flow.Reaches p.entry b

theorem reachable_entry : p.Reachable p.entry :=
  .refl _

theorem Reachable.succ (reach : p.Reachable a) (edge : b ∈ p.succs a) : p.Reachable b :=
  reach.trans (.of_edge edge)

theorem flow_lists_reachable (b : BlockId) (reach : p.Reachable b) : b ∈ p.flow.nodes := by
  obtain ⟨nodes, path⟩ := reach
  rcases path.eq_single_or_last with ⟨rfl, -⟩ | ⟨a, -, -, edge, -⟩
  · exact .head _
  · obtain ⟨block, mem, rfl, same⟩ := exists_block_of_succs (List.ne_nil_of_mem edge)
    refine .tail _ (List.mem_flatMap.2 ⟨block, mem, .tail _ ?_⟩)
    exact same ▸ edge

theorem order_eq : p.analysis.order = (p.flow.search p.entry).order :=
  Digraph.reversePostOrder_eq flow_lists_reachable

theorem mem_order_iff : b ∈ p.analysis.order ↔ p.Reachable b := by
  rw [order_eq]
  exact (Digraph.mem_search_order_iff flow_lists_reachable).1 b

theorem order_nodup : p.analysis.order.Nodup := by
  rw [order_eq]
  exact (Digraph.mem_search_order_iff flow_lists_reachable).2

theorem isFeedback_target (feedback : p.analysis.isFeedback a b) : b = p.entry ∨ ∃ c, c ≠ a ∧ b ∈ p.succs c := by
  have found : (a, b) ∈ (p.flow.search p.entry).feedback := by
    simpa [Facts.isFeedback, analysis] using feedback
  exact Digraph.search_feedback a b found

theorem Reachable.forward {inside : BlockId → Prop} (reach : p.Reachable b) (entry : inside p.entry)
    (along : ∀ a b, inside a → b ∈ p.succs a → p.analysis.isFeedback a b = false → inside b) : inside b := by
  have earlier (before after : List BlockId) (split : (p.flow.search p.entry).order = before ++ after) :
      ∀ b ∈ before, inside b := by
    induction before using List.reverseRecOn generalizing after with
    | nil => simp
    | append_singleton _ b ih =>
      rw [List.append_assoc, List.singleton_append] at split
      have known := ih (b :: after) split
      have here : inside b := by
        by_cases first : b = p.entry
        · exact first ▸ entry
        · obtain ⟨a, mem, edge, forward⟩ := Digraph.exists_tree_edge flow_lists_reachable split first
          apply along a b (known a mem) edge
          simpa [Facts.isFeedback, analysis] using forward
      intro c mem
      rcases List.mem_append.1 mem with old | new
      · exact known c old
      · exact List.mem_singleton.1 new ▸ here
  exact earlier _ [] (List.append_nil _).symm b (order_eq ▸ mem_order_iff.2 reach)

def Dominates (p : Procedure) (d b : BlockId) : Prop :=
  p.flow.Dominates p.entry d b

theorem isFeedback_of_dominates (reach : p.Reachable a) (edge : b ∈ p.succs a) (dominates : p.Dominates b a) :
    p.analysis.isFeedback a b := by
  have found := Digraph.mem_feedback_of_dominates flow_lists_reachable reach edge dominates
  simpa [Facts.isFeedback, analysis] using found

theorem eq_of_isFeedback (feedback : p.analysis.isFeedback a b) (dominates : p.Dominates a b) : a = b := by
  have found : (a, b) ∈ (p.flow.search p.entry).feedback := by
    simpa [Facts.isFeedback, analysis] using feedback
  exact Digraph.eq_of_mem_feedback found dominates

theorem dominates_of_entered (inside : BlockId → Prop) (outer : ¬ inside p.entry)
    (entered : ∀ c b, b ∈ p.succs c → inside b → inside c ∨ c = d) (mem : inside b) : p.Dominates d b := by
  intro nodes path
  induction length : nodes.length generalizing b nodes with
  | zero =>
    have := path.length_pos
    omega
  | succ n ih =>
    rcases path.eq_single_or_last with ⟨rfl, -⟩ | ⟨c, before, path', edge, rfl⟩
    · exact absurd mem outer
    · apply List.mem_append_left
      rcases entered c b edge mem with within | rfl
      · exact ih within before path' (by simpa using length)
      · exact path'.right_mem

theorem idom?_eq_some_iff : p.analysis.idom? b = some d ↔ p.flow.ImmediatelyDominates p.entry d b := by
  have mem (d : BlockId) : (b, d) ∈ p.analysis.idoms ↔ p.flow.ImmediatelyDominates p.entry d b :=
    Digraph.mem_immediateDominators_iff flow_lists_reachable
  rw [Facts.idom?, lookup_eq_some_iff_mem, mem]
  intro d e first second
  exact ((mem d).1 first).unique ((mem e).1 second)

theorem children_analysis (b : BlockId) : p.analysis.children b = if b ∈ p.analysis.order then
      p.analysis.order.filter fun c => p.analysis.idom? c = some b else [] := by
  have listed : p.analysis.domChildren.lookup b = if b ∈ p.analysis.order then
      some (p.analysis.order.filter fun c => p.analysis.idom? c = some b) else none :=
    lookup_map_pair _ _ b
  rw [Facts.children, listed]
  split <;> rfl

theorem mem_children_iff : b ∈ p.analysis.children d ↔ p.flow.ImmediatelyDominates p.entry d b := by
  rw [children_analysis]
  split
  · rw [List.mem_filter, mem_order_iff, decide_eq_true_iff, idom?_eq_some_iff]
    exact ⟨fun mem => mem.2, fun idom => ⟨idom.reached, idom⟩⟩
  · rename_i unreachable
    rw [mem_order_iff] at unreachable
    simp only [List.not_mem_nil, false_iff]
    exact fun idom => unreachable (idom.dominates.reaches idom.reached)

theorem children_nodup : (p.analysis.children b).Nodup := by
  rw [children_analysis]
  split
  · exact order_nodup.filter _
  · exact List.nodup_nil

open Classical in
noncomputable def dominators (p : Procedure) (b : BlockId) : List BlockId :=
  p.analysis.order.filter fun d => d ≠ b ∧ p.Dominates d b

theorem mem_dominators_iff (reach : p.Reachable b) : d ∈ p.dominators b ↔ d ≠ b ∧ p.Dominates d b := by
  simp only [dominators, List.mem_filter, mem_order_iff, decide_eq_true_eq, and_iff_right_iff_imp]
  exact fun strict => strict.2.reaches reach

theorem cons_dominators_nodup (reach : p.Reachable b) : (b :: p.dominators b).Nodup := by
  refine List.nodup_cons.2 ⟨fun mem => ?_, order_nodup.filter _⟩
  exact ((mem_dominators_iff reach).1 mem).1 rfl

theorem dominators_length_lt (idom : p.flow.ImmediatelyDominates p.entry d b) :
    (p.dominators d).length < (p.dominators b).length := by
  have above : p.Reachable d := idom.dominates.reaches idom.reached
  have subset : d :: p.dominators d ⊆ p.dominators b := by
    intro x mem
    rw [mem_dominators_iff idom.reached]
    rcases List.mem_cons.1 mem with rfl | mem
    · exact ⟨idom.ne, idom.dominates⟩
    · obtain ⟨ne, dominates⟩ := (mem_dominators_iff above).1 mem
      refine ⟨?_, dominates.trans idom.dominates⟩
      rintro rfl
      exact idom.ne (Digraph.Dominates.antisymm idom.reached idom.dominates dominates)
  simpa using ((cons_dominators_nodup above).subperm subset).length_le

theorem dominators_length_le (reach : p.Reachable b) : (p.dominators b).length ≤ p.analysis.idoms.length := by
  have subset : b :: p.dominators b ⊆ p.entry :: p.analysis.idoms.map (·.1) := by
    intro x mem
    have reached : p.Reachable x := by
      rcases List.mem_cons.1 mem with rfl | mem
      · exact reach
      · exact mem_order_iff.1 (List.mem_of_mem_filter mem)
    by_cases first : x = p.entry
    · exact first ▸ (.head _)
    · obtain ⟨d, idom⟩ := Digraph.exists_immediatelyDominates reached first
      have listed : (x, d) ∈ p.analysis.idoms :=
        (Digraph.mem_immediateDominators_iff flow_lists_reachable).2 idom
      exact .tail _ (List.mem_map.2 ⟨_, listed, rfl⟩)
  simpa using ((cons_dominators_nodup reach).subperm subset).length_le

theorem dominates_of_isAboveWithin {fuel : Nat} (above : p.analysis.isAboveWithin a fuel b = true) :
    p.Dominates a b := by
  induction fuel generalizing b with
  | zero =>
    obtain rfl : a = b := by simpa [Facts.isAboveWithin] using above
    exact .refl a
  | succ fuel ih =>
    rw [Facts.isAboveWithin, Bool.or_eq_true, decide_eq_true_eq, Option.any_eq_true] at above
    rcases above with rfl | ⟨d, idom, above⟩
    · exact .refl a
    · exact (ih above).trans (idom?_eq_some_iff.1 idom).dominates

theorem isAboveWithin_of_dominates {fuel : Nat} (reach : p.Reachable b) (dominates : p.Dominates a b)
    (enough : (p.dominators b).length ≤ fuel) : p.analysis.isAboveWithin a fuel b = true := by
  induction fuel generalizing b with
  | zero =>
    by_contra differs
    have ne : a ≠ b := by simpa [Facts.isAboveWithin] using differs
    have some := List.length_pos_of_mem ((mem_dominators_iff reach).2 ⟨ne, dominates⟩)
    omega
  | succ fuel ih =>
    rw [Facts.isAboveWithin, Bool.or_eq_true, decide_eq_true_eq, Option.any_eq_true]
    by_cases same : a = b
    · exact .inl same
    · have inner : b ≠ p.entry := by
        rintro rfl
        exact same (by simpa using dominates _ (.single p.entry))
      obtain ⟨d, idom⟩ := Digraph.exists_immediatelyDominates reach inner
      have fewer := dominators_length_lt idom
      exact .inr ⟨d, idom?_eq_some_iff.2 idom, ih (idom.dominates.reaches reach)
        (idom.closest a same dominates) (by omega)⟩

theorem dominates_iff (reach : p.Reachable b) : p.analysis.dominates a b = true ↔ p.Dominates a b :=
  ⟨dominates_of_isAboveWithin,
    fun dominates => isAboveWithin_of_dominates reach dominates (dominators_length_le reach)⟩

def backflow (p : Procedure) : Digraph (Option BlockId) :=
  p.reversedFlow p.analysis.order

theorem mem_backflow_none : some a ∈ p.backflow.succs none ↔ p.Reachable a ∧ p.succs a = [] := by
  simp [backflow, reversedFlow, mem_order_iff]

theorem mem_backflow_some : some a ∈ p.backflow.succs (some b) ↔ p.Reachable a ∧ b ∈ p.succs a := by
  have preds : p.backflow.succs (some b) = ((if b ∈ p.analysis.order then
      some (p.analysis.order.filter fun a => b ∈ p.succs a) else none).getD []).map some := by
    rw [← lookup_map_pair (fun b => p.analysis.order.filter fun a => b ∈ p.succs a)]
    rfl
  rw [preds]
  split
  · simp [mem_order_iff]
  · rename_i unreachable
    simp only [Option.getD_none, List.map_nil, List.not_mem_nil, false_iff, not_and]
    exact fun reach edge => unreachable (mem_order_iff.2 (reach.succ edge))

theorem none_not_mem_backflow (node : Option BlockId) : none ∉ p.backflow.succs node := by
  cases node <;> simp [backflow, reversedFlow]

theorem backflow_lists_reachable (node : Option BlockId) (reached : p.backflow.Reaches none node) :
    node ∈ p.backflow.nodes := by
  obtain ⟨nodes, path⟩ := reached
  rcases path.eq_single_or_last with ⟨rfl, -⟩ | ⟨c, -, -, edge, -⟩
  · exact .head _
  · cases node with
    | none => exact .head _
    | some a =>
      refine .tail _ (List.mem_map_of_mem (mem_order_iff.2 ?_))
      cases c with
      | none => exact (mem_backflow_none.1 edge).1
      | some b => exact (mem_backflow_some.1 edge).1

def PostDominates (p : Procedure) (j b : BlockId) : Prop :=
  p.backflow.Dominates none (some j) (some b)

def CanExit (p : Procedure) (b : BlockId) : Prop :=
  p.backflow.Reaches none (some b)

theorem ipdom?_eq_some_iff : p.analysis.ipdom? b = some a ↔ p.backflow.ImmediatelyDominates none (some a) (some b) := by
  have mem (a : BlockId) : (b, a) ∈ p.analysis.ipdoms ↔ p.backflow.ImmediatelyDominates none (some a) (some b) := by
    rw [← Digraph.mem_immediateDominators_iff backflow_lists_reachable]
    simp only [analysis, postDominators, List.mem_filterMap]
    constructor
    · rintro ⟨⟨_ | c, _ | e⟩, found, same⟩
      · simp at same
      · simp at same
      · simp at same
      · obtain ⟨rfl, rfl⟩ : c = b ∧ e = a := by simpa using same
        exact found
    · intro found
      exact ⟨(some b, some a), found, rfl⟩
  rw [Facts.ipdom?, lookup_eq_some_iff_mem, mem]
  intro a c first second
  exact Option.some.inj (((mem a).1 first).unique ((mem c).1 second))

theorem PostDominates.succ (dominates : p.PostDominates d a) (ne : d ≠ a) (reach : p.Reachable a)
    (edge : b ∈ p.succs a) : p.PostDominates d b :=
  Digraph.Dominates.of_edge dominates (by simpa using ne) (mem_backflow_some.2 ⟨reach, edge⟩)

theorem PostDominates.antisymm (exits : p.CanExit b) (first : p.PostDominates a b)
    (second : p.PostDominates b a) : a = b :=
  Option.some.inj (Digraph.Dominates.antisymm exits first second)

theorem PostDominates.canExit (dominates : p.PostDominates d a) (exits : p.CanExit a) : p.CanExit d :=
  Digraph.Dominates.reaches dominates exits

theorem PostDominates.exists_ipdom (dominates : p.PostDominates a b) (ne : a ≠ b) (exits : p.CanExit b) :
    ∃ join, p.analysis.ipdom? b = some join ∧ p.PostDominates a join := by
  obtain ⟨node, idom⟩ := Digraph.exists_immediatelyDominates exits (by simp)
  have closest := idom.closest (some a) (by simpa using ne) dominates
  cases node with
  | none => simpa using closest _ (.single none)
  | some join => exact ⟨join, ipdom?_eq_some_iff.2 idom, closest⟩

theorem CanExit.reachable (exits : p.CanExit b) : p.Reachable b := by
  obtain ⟨nodes, path⟩ := exits
  rcases path.eq_single_or_last with ⟨same, -⟩ | ⟨node, -, -, edge, -⟩
  · simp at same
  · cases node with
    | none => exact (mem_backflow_none.1 edge).1
    | some a => exact (mem_backflow_some.1 edge).1

theorem path_of_backflow {nodes : List (Option BlockId)} (path : p.backflow.Path (some a) (some b) nodes) :
    ∃ way, p.flow.Path b a way ∧ ∀ c, c ∈ way → some c ∈ nodes := by
  generalize from_ : some a = start at path
  generalize to_ : some b = target at path
  induction path generalizing a with
  | single =>
    obtain rfl : a = b := Option.some.inj (from_.trans to_.symm)
    exact ⟨[a], .single a, by simp [from_]⟩
  | @step _ next _ _ edge _ ih =>
    subst from_
    cases next with
    | none => exact absurd edge (none_not_mem_backflow _)
    | some c =>
      obtain ⟨way, forth, visited⟩ := ih rfl to_
      refine ⟨_, forth.snoc (mem_backflow_some.1 edge).2, ?_⟩
      intro d mem
      rcases List.mem_append.1 mem with inside | last
      · exact .tail _ (visited d inside)
      · rw [List.mem_singleton.1 last]
        exact .head _

theorem CanExit.of_reaches (exits : p.CanExit b) (reach : p.Reachable a)
    (reaches : p.flow.Reaches a b) : p.CanExit a := by
  obtain ⟨nodes, path⟩ := reaches
  induction path with
  | single a => exact exits
  | @step _ _ _ _ edge _ ih =>
    have next := ih exits (reach.succ edge)
    exact next.trans (.of_edge (mem_backflow_some.2 ⟨reach, edge⟩))

theorem reaches_of_ipdom? (join : p.analysis.ipdom? b = some a) : p.flow.Reaches b a := by
  have idom := ipdom?_eq_some_iff.1 join
  obtain ⟨nodes, path⟩ := idom.reached
  obtain ⟨before, after, -, back, -, -⟩ := path.split_first (idom.dominates _ path)
  obtain ⟨way, forth, -⟩ := path_of_backflow back
  exact ⟨way, forth⟩

theorem Dominates.of_ipdom? (dominates : p.Dominates d a) (ne : d ≠ a)
    (join : p.analysis.ipdom? b = some a) : p.Dominates d b := by
  intro nodes path
  by_contra avoids
  have between (back : List (Option BlockId)) (way : p.backflow.Path (some a) (some b) back) : some d ∈ back := by
    obtain ⟨forth, onward, visited⟩ := path_of_backflow way
    obtain ⟨whole, joined, members⟩ := path.trans onward
    rcases (members d).1 (dominates _ joined) with before | after
    · exact absurd before avoids
    · exact visited d after
  rcases (ipdom?_eq_some_iff.1 join).eq_or_eq_of_between between with same | same
  · exact ne (Option.some.inj same)
  · exact avoids (Option.some.inj same ▸ path.right_mem)

theorem backflow_of_path {way : List BlockId} (reach : p.Reachable a) (path : p.flow.Path a b way) :
    ∃ nodes, p.backflow.Path (some b) (some a) nodes ∧ ∀ c, some c ∈ nodes → c ∈ way := by
  induction path with
  | single a => exact ⟨[some a], .single _, by simp⟩
  | @step a c b rest edge _ ih =>
    obtain ⟨nodes, back, visited⟩ := ih (reach.succ edge)
    refine ⟨_, back.snoc (mem_backflow_some.2 ⟨reach, edge⟩), ?_⟩
    intro d mem
    rcases List.mem_append.1 mem with inside | last
    · exact .tail _ (visited d inside)
    · obtain rfl : d = a := by simpa using last
      exact .head _

theorem postDominates_of_left (inside : BlockId → Prop)
    (left : ∀ c, inside c → p.succs c ≠ [] ∧ ∀ b ∈ p.succs c, inside b ∨ b = d) (mem : inside a) :
    p.PostDominates d a := by
  intro nodes path
  induction length : nodes.length generalizing a nodes with
  | zero =>
    have := path.length_pos
    omega
  | succ n ih =>
    rcases path.eq_single_or_last with ⟨same, -⟩ | ⟨node, before, path', edge, rfl⟩
    · simp at same
    · apply List.mem_append_left
      cases node with
      | none => exact absurd (mem_backflow_none.1 edge).2 (left a mem).1
      | some b =>
        rcases (left a mem).2 b (mem_backflow_some.1 edge).2 with within | rfl
        · exact ih within before path' (by simpa using length)
        · exact path'.right_mem

theorem ipdom?_eq_some_of_ways (exits : p.CanExit b) (ne : a ≠ b) (dominates : p.PostDominates a b)
    (ways : ∀ d, d ≠ b → d ≠ a → ∃ way, p.flow.Path b a way ∧ d ∉ way) : p.analysis.ipdom? b = some a := by
  refine ipdom?_eq_some_iff.2 ⟨exits, by simpa using ne, dominates, ?_⟩
  intro node other above nodes path
  cases node with
  | none => exact path.left_mem
  | some d =>
    by_cases same : d = a
    · subst same
      exact path.right_mem
    · obtain ⟨way, forth, avoids⟩ := ways d (by simpa using other) same
      obtain ⟨back, backward, visited⟩ := backflow_of_path exits.reachable forth
      obtain ⟨whole, joined, members⟩ := path.trans backward
      rcases (members (some d)).1 (above _ joined) with early | late
      · exact early
      · exact absurd (visited d late) avoids

theorem ipdom?_of_single (exits : p.CanExit b) (ne : a ≠ b) (single : ∀ c, c ∈ p.succs b ↔ c = a) :
    p.analysis.ipdom? b = some a := by
  have edge : a ∈ p.succs b := (single a).2 rfl
  apply ipdom?_eq_some_of_ways exits ne
  · refine postDominates_of_left (· = b) ?_ rfl
    rintro c rfl
    exact ⟨List.ne_nil_of_mem edge, fun d mem => .inr ((single d).1 mem)⟩
  · intro d other other'
    exact ⟨[b, a], .step edge (.single a), by simp [other, other']⟩

theorem ipdom?_of_succs_eq_nil (none : p.succs b = []) : p.analysis.ipdom? b = Option.none := by
  cases found : p.analysis.ipdom? b with
  | none => rfl
  | some a =>
    have idom := ipdom?_eq_some_iff.1 found
    have reach : p.Reachable b := CanExit.reachable idom.reached
    have direct : p.backflow.Path Option.none (some b) [Option.none, some b] :=
      .step (mem_backflow_none.2 ⟨reach, none⟩) (.single _)
    have visited := idom.dominates _ direct
    simp only [List.mem_cons, reduceCtorEq, List.not_mem_nil, or_false, false_or] at visited
    exact absurd visited idom.ne

def Leads (p : Procedure) (a b : BlockId) : Prop :=
  b ∈ p.succs a ∨ p.analysis.ipdom? a = some b

theorem Leads.reachable (leads : p.Leads a b) (reach : p.Reachable a) : p.Reachable b := by
  rcases leads with edge | join
  · exact reach.succ edge
  · have idom := ipdom?_eq_some_iff.1 join
    exact CanExit.reachable (idom.dominates.reaches idom.reached)

theorem Dominates.of_leads (dominates : p.Dominates d b) (ne : d ≠ b) (leads : p.Leads a b) : p.Dominates d a := by
  rcases leads with edge | join
  · exact Digraph.Dominates.of_edge dominates ne edge
  · exact dominates.of_ipdom? ne join

theorem Leads.exists_pred (leads : p.Leads a b) (ne : a ≠ d) : ∃ c, c ≠ d ∧ b ∈ p.succs c := by
  rcases leads with edge | join
  · exact ⟨a, ne, edge⟩
  · by_contra none
    push Not at none
    have only : ∀ node ∈ p.backflow.succs (some b), node = some d := by
      intro node mem
      cases node with
      | none => exact absurd mem (none_not_mem_backflow _)
      | some c =>
        by_contra differs
        exact none c (by simpa using differs) (mem_backflow_some.1 mem).2
    have same := (ipdom?_eq_some_iff.1 join).eq_of_succs_eq only
    exact ne (Option.some.inj same).symm

/-- Whether a block is rendered or set aside whenever another one is rendered: it dominates the other, or a dominator of
the other has it as its join. -/
def Visited (p : Procedure) (b x : BlockId) : Prop :=
  p.Dominates x b ∨ ∃ d, p.Dominates d b ∧ p.analysis.ipdom? d = some x

end Procedure

end Reflow
