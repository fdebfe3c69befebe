import Reflow.Proofs.Graph.Order
import Reflow.Proofs.Graph.Parents

namespace Reflow

theorem lookup_eq_some_iff_mem {α β : Type} [BEq α] [LawfulBEq α] {entries : List (α × β)} {a : α} {b : β}
    (single : ∀ b c, (a, b) ∈ entries → (a, c) ∈ entries → b = c) : entries.lookup a = some b ↔ (a, b) ∈ entries := by
  induction entries with
  | nil => simp
  | cons entry _ ih =>
    obtain ⟨a', b'⟩ := entry
    by_cases same : a = a'
    · subst same
      simp only [List.lookup_cons, beq_self_eq_true, Option.some.injEq, List.mem_cons, Prod.mk.injEq, true_and]
      exact ⟨fun eq => .inl eq.symm, fun member => single b' b (by simp) (by simpa using member)⟩
    · have differs : (a == a') = false := by simpa using same
      have rest := ih fun b c first second => single b c (by simp [first]) (by simp [second])
      simp [List.lookup_cons, differs, rest, same]

namespace Digraph

variable {α : Type} {g : Digraph α} {root a b x : α} {order : List α} {i j d : Nat}

/-- An order of the nodes that can be reached from a root, the root first and each other node behind one with an edge to
it. -/
structure Orders (g : Digraph α) (root : α) (order : List α) : Prop where
  first : order[0]? = some root
  nodup : order.Nodup
  mem : ∀ a, a ∈ order ↔ g.Reaches root a
  behind : ∀ j b, order[j]? = some b → 0 < j → ∃ i < j, ∃ a, order[i]? = some a ∧ b ∈ g.succs a

abbrev Shown (order : List α) : List Nat → List α → Prop :=
  List.Forall₂ fun i a => order[i]? = some a

namespace Orders

theorem place_unique (orders : g.Orders root order) (here : order[i]? = some a) (there : order[j]? = some a) :
    i = j := by
  obtain ⟨inside, rfl⟩ := List.getElem?_eq_some_iff.1 here
  obtain ⟨inside', same⟩ := List.getElem?_eq_some_iff.1 there
  exact ((orders.nodup.getElem_inj_iff).1 same).symm

theorem exists_place (orders : g.Orders root order) (reached : g.Reaches root a) : ∃ i : Nat, order[i]? = some a :=
  List.getElem?_of_mem ((orders.mem a).2 reached)

theorem mem_iff (orders : g.Orders root order) {places : List Nat} {nodes : List α}
    (shown : Shown order places nodes) (here : order[i]? = some a) : i ∈ places ↔ a ∈ nodes := by
  induction shown with
  | nil => simp
  | @cons j b _ _ there _ ih =>
    have same : i = j ↔ a = b := by
      constructor
      · intro same
        subst same
        exact Option.some.inj (here.symm.trans there)
      · intro same
        subst same
        exact orders.place_unique here there
    rw [List.mem_cons, List.mem_cons, ih, same]

end Orders

section Places

variable [DecidableEq α]

theorem mem_entering_iff : i ∈ (g.entering order).getD j [] ↔
    ∃ a b, order[i]? = some a ∧ order[j]? = some b ∧ b ∈ g.succs a := by
  rw [entering, List.getD_eq_getElem?_getD, List.getElem?_map]
  cases there : order[j]? with
  | none => simp
  | some b =>
    simp only [Option.map_some, Option.getD_some, List.mem_filterMap, Option.ite_none_right_eq_some,
      Option.some.injEq, Prod.exists, List.mem_zipIdx_iff_getElem?]
    constructor
    · rintro ⟨a, i, here, edge, rfl⟩
      exact ⟨a, b, here, rfl, edge⟩
    · rintro ⟨a, b, here, rfl, edge⟩
      exact ⟨a, i, here, edge, rfl⟩

theorem mem_places_succs : j ∈ (Parents.graph (g.entering order)).succs i ↔
    ∃ a b, order[i]? = some a ∧ order[j]? = some b ∧ b ∈ g.succs a := by
  rw [Parents.mem_graph_succs, mem_entering_iff]
  constructor
  · exact fun edge => edge.2
  · rintro ⟨a, b, here, there, edge⟩
    refine ⟨?_, a, b, here, there, edge⟩
    simpa [entering] using (List.getElem?_eq_some_iff.1 there).1

theorem path_of_places {places : List Nat} (path : (Parents.graph (g.entering order)).Path i j places)
    (here : order[i]? = some a) (there : order[j]? = some b) :
    ∃ nodes, g.Path a b nodes ∧ Shown order places nodes := by
  induction path generalizing a with
  | single i =>
    obtain rfl : a = b := Option.some.inj (here.symm.trans there)
    exact ⟨[a], .single a, .cons here .nil⟩
  | step edge _ ih =>
    obtain ⟨c, e, here', next, edge⟩ := mem_places_succs.1 edge
    obtain rfl : a = c := Option.some.inj (here.symm.trans here')
    obtain ⟨nodes, path, shown⟩ := ih next there
    exact ⟨a :: nodes, .step edge path, .cons here shown⟩

section

variable (orders : g.Orders root order)
include orders

theorem Orders.places_of_path {nodes : List α} (path : g.Path a b nodes) (here : order[i]? = some a)
    (there : order[j]? = some b) :
    ∃ places, (Parents.graph (g.entering order)).Path i j places ∧ Shown order places nodes := by
  induction path generalizing i with
  | single a =>
    obtain rfl := orders.place_unique here there
    exact ⟨[i], .single i, .cons here .nil⟩
  | step edge _ ih =>
    have reached := (orders.mem _).1 (List.mem_of_getElem? here)
    obtain ⟨k, next⟩ := orders.exists_place (reached.trans (.of_edge edge))
    obtain ⟨places, path, shown⟩ := ih next there
    exact ⟨i :: places, .step (mem_places_succs.2 ⟨_, _, here, next, edge⟩) path, .cons here shown⟩

theorem Orders.entering_ne_nil : g.entering order ≠ [] := by
  rw [entering, ne_eq, List.map_eq_nil_iff]
  rintro rfl
  simpa using orders.first

theorem Orders.spanned : Parents.Spanned (g.entering order) := by
  intro j later inside
  obtain ⟨b, there⟩ : ∃ b, order[j]? = some b := ⟨_, List.getElem?_eq_getElem (by simpa [entering] using inside)⟩
  obtain ⟨i, earlier, a, here, edge⟩ := orders.behind j b there later
  exact ⟨i, mem_entering_iff.2 ⟨a, b, here, there, edge⟩, earlier⟩

theorem Orders.dominates_iff (here : order[d]? = some x) (there : order[j]? = some b) :
    (Parents.graph (g.entering order)).Dominates 0 d j ↔ g.Dominates root x b := by
  constructor
  · intro dominates nodes path
    obtain ⟨places, path', shown⟩ := orders.places_of_path path orders.first there
    exact (orders.mem_iff shown here).1 (dominates places path')
  · intro dominates places path
    obtain ⟨nodes, path', shown⟩ := path_of_places path orders.first there
    exact (orders.mem_iff shown here).2 (dominates nodes path')

theorem Orders.immediatelyDominates_iff (here : order[d]? = some x) (there : order[j]? = some b) :
    (Parents.graph (g.entering order)).ImmediatelyDominates 0 d j ↔ g.ImmediatelyDominates root x b := by
  have same : d = j ↔ x = b := by
    constructor
    · intro same
      subst same
      exact Option.some.inj (here.symm.trans there)
    · intro same
      subst same
      exact orders.place_unique here there
  constructor
  · intro idom
    have reached := (orders.mem b).1 (List.mem_of_getElem? there)
    refine ⟨reached, fun equal => idom.ne (same.2 equal), (orders.dominates_iff here there).1 idom.dominates, ?_⟩
    intro y ne dominates
    obtain ⟨e, place⟩ := orders.exists_place (dominates.reaches reached)
    refine (orders.dominates_iff place here).1 (idom.closest e ?_ ((orders.dominates_iff place there).2 dominates))
    rintro rfl
    exact ne (Option.some.inj (place.symm.trans there))
  · intro idom
    obtain ⟨nodes, path⟩ := idom.reached
    obtain ⟨places, path', shown⟩ := orders.places_of_path path orders.first there
    refine ⟨⟨places, path'⟩, fun equal => idom.ne (same.1 equal),
      (orders.dominates_iff here there).2 idom.dominates, ?_⟩
    intro e ne dominates
    have inside := Parents.lt_length_of_path path' orders.entering_ne_nil e (dominates places path')
    obtain ⟨y, place⟩ : ∃ y, order[e]? = some y :=
      ⟨_, List.getElem?_eq_getElem (by simpa [entering] using inside)⟩
    refine (orders.dominates_iff place here).2 (idom.closest y ?_ ((orders.dominates_iff place there).1 dominates))
    rintro rfl
    exact ne (orders.place_unique place there)

end

theorem orders_search (listed : ∀ a, g.Reaches root a → a ∈ g.nodes) : g.Orders root (g.search root).order := by
  obtain ⟨mem, nodup⟩ := mem_search_order_iff listed
  have split (j : Nat) (b : α) (there : (g.search root).order[j]? = some b) :
      (g.search root).order = (g.search root).order.take j ++ b :: (g.search root).order.drop (j + 1) := by
    obtain ⟨inside, rfl⟩ := List.getElem?_eq_some_iff.1 there
    rw [List.getElem_cons_drop, List.take_append_drop]
  have first : (g.search root).order[0]? = some root := by
    have member := (mem root).2 (.refl root)
    cases found : (g.search root).order[0]? with
    | none =>
      rw [List.getElem?_eq_none_iff] at found
      rw [List.length_eq_zero_iff.1 (Nat.le_zero.1 found)] at member
      simp at member
    | some b =>
      rcases search_sprouts _ b _ (split 0 b found) with rfl | ⟨c, member, -⟩
      · rfl
      · simp at member
  refine ⟨first, nodup, mem, fun j b there later => ?_⟩
  have inner : b ≠ root := by
    rintro rfl
    obtain ⟨inside, at_j⟩ := List.getElem?_eq_some_iff.1 there
    obtain ⟨inside', at_0⟩ := List.getElem?_eq_some_iff.1 first
    have same := (nodup.getElem_inj_iff).1 (at_j.trans at_0.symm)
    omega
  obtain ⟨a, member, edge, -⟩ := exists_tree_edge listed (split j b there) inner
  obtain ⟨i, short, here⟩ := List.getElem_of_mem member
  rw [List.length_take] at short
  refine ⟨i, by omega, a, ?_, edge⟩
  rw [List.getElem_take] at here
  rw [← here, List.getElem?_eq_getElem]

omit [DecidableEq α] in
theorem mem_drop_zipIdx (order : List α) (b : α) (j : Nat) :
    (b, j) ∈ order.zipIdx.drop 1 ↔ 0 < j ∧ order[j]? = some b := by
  cases order with
  | nil => simp
  | cons =>
    rw [List.zipIdx_cons, List.drop_one, List.tail_cons, List.mem_zipIdx_iff_le_and_getElem?_sub]
    cases j with
    | zero => simp
    | succ j => simp

theorem mem_immediateDominators_iff (listed : ∀ a, g.Reaches root a → a ∈ g.nodes) :
    (b, x) ∈ g.immediateDominators root ↔ g.ImmediatelyDominates root x b := by
  have orders := orders_search listed
  have parent_iff {j d : Nat} {b x : α} (later : 0 < j) (here : (g.search root).order[d]? = some x)
      (there : (g.search root).order[j]? = some b) :
      (Parents.ofEdges (g.entering (g.search root).order)).parent? j = some d ↔ g.ImmediatelyDominates root x b := by
    rw [Parents.parent?_ofEdges_iff orders.spanned later, orders.immediatelyDominates_iff here there]
    simpa [entering] using (List.getElem?_eq_some_iff.1 there).1
  simp only [immediateDominators, List.mem_filterMap, Option.map_eq_some_iff, Option.bind_eq_some_iff,
    Prod.mk.injEq, Prod.exists, mem_drop_zipIdx]
  constructor
  · rintro ⟨c, j, ⟨later, there⟩, y, ⟨d, parent, here⟩, rfl, rfl⟩
    exact (parent_iff later here there).1 parent
  · intro idom
    obtain ⟨j, there⟩ := orders.exists_place idom.reached
    obtain ⟨d, here⟩ := orders.exists_place (idom.dominates.reaches idom.reached)
    have later : 0 < j := by
      apply Nat.pos_of_ne_zero
      rintro rfl
      obtain rfl : root = b := Option.some.inj (orders.first.symm.trans there)
      exact idom.ne (by simpa using idom.dominates [root] (.single root))
    exact ⟨b, j, ⟨later, there⟩, x, ⟨d, (parent_iff later here there).2 idom, here⟩, rfl, rfl⟩

/-- In a graph whose edges stay among its nodes, the iteration ends with parents that a further round does not change.
-/
theorem lookup_immediateDominators (g : Digraph α) (root : α) (listed : root ∈ g.nodes)
    (closed : ∀ a ∈ g.nodes, ∀ b ∈ g.succs a, b ∈ g.nodes) :
    Parents.round (g.entering (g.search root).order) (Parents.ofEdges (g.entering (g.search root).order)) =
      Parents.ofEdges (g.entering (g.search root).order) ∧
    ∀ v, (∀ d, (g.immediateDominators root).lookup v = some d ↔
        (∃ nodes, g.Path root v nodes) ∧ v ≠ root ∧ d ≠ v ∧ (∀ nodes, g.Path root v nodes → d ∈ nodes) ∧
          ∀ e, e ≠ v → (∀ nodes, g.Path root v nodes → e ∈ nodes) → ∀ nodes, g.Path root d nodes → e ∈ nodes) ∧
      ((g.immediateDominators root).lookup v = none ↔ v = root ∨ ¬ ∃ nodes, g.Path root v nodes) := by
  have reach : ∀ a, g.Reaches root a → a ∈ g.nodes := by
    rintro a ⟨nodes, path⟩
    exact path.forall_mem listed closed a path.right_mem
  have orders := orders_search reach
  have found (v d : α) : (g.immediateDominators root).lookup v = some d ↔ g.ImmediatelyDominates root d v := by
    rw [lookup_eq_some_iff_mem, mem_immediateDominators_iff reach]
    intro d e first second
    exact ((mem_immediateDominators_iff reach).1 first).unique ((mem_immediateDominators_iff reach).1 second)
  refine ⟨Parents.round_ofEdges orders.entering_ne_nil orders.spanned, fun v => ⟨fun d => ?_, ?_⟩⟩
  · rw [found]
    constructor
    · intro idom
      refine ⟨idom.reached, ?_, idom.ne, idom.dominates, idom.closest⟩
      rintro rfl
      exact idom.ne (by simpa using idom.dominates [v] (.single v))
    · rintro ⟨reached, -, ne, dominates, closest⟩
      exact ⟨reached, ne, dominates, closest⟩
  · constructor
    · intro none
      by_contra both
      obtain ⟨inner, reached⟩ := not_or.1 both
      obtain ⟨d, idom⟩ := exists_immediatelyDominates (not_not.1 reached) inner
      rw [(found v d).2 idom] at none
      simp at none
    · intro either
      cases known : (g.immediateDominators root).lookup v with
      | none => rfl
      | some d =>
        have idom := (found v d).1 known
        rcases either with rfl | unreachable
        · exact absurd (by simpa using idom.dominates [v] (.single v)) idom.ne
        · exact absurd idom.reached unreachable

end Places

def knot : Digraph Nat where
  nodes := [0, 1, 2, 3, 4]
  succs := fun
    | 0 => [1, 2, 1]
    | 1 => [2]
    | 2 => [1, 2, 3]
    | 4 => [3]
    | _ => []

theorem lookup_immediateDominators_knot : 0 ∈ knot.nodes ∧ (∀ a ∈ knot.nodes, ∀ b ∈ knot.succs a, b ∈ knot.nodes) ∧
    (∀ nodes, knot.Path 0 3 nodes → 2 ∈ nodes) ∧ (∃ nodes, knot.Path 0 3 nodes ∧ 1 ∉ nodes) ∧
    ¬ (∃ nodes, knot.Path 0 4 nodes) := by
  have listed : 0 ∈ knot.nodes := by decide
  have closed : ∀ a ∈ knot.nodes, ∀ b ∈ knot.succs a, b ∈ knot.nodes := by decide
  obtain ⟨-, found⟩ := lookup_immediateDominators knot 0 listed closed
  refine ⟨listed, closed, ?_, ⟨[0, 2, 3], ?_, by decide⟩, ?_⟩
  · exact (((found 3).1 2).1 (by decide)).2.2.2.1
  · exact .step (by decide) (.step (by decide) (.single 3))
  · exact (((found 4).2).1 (by decide)).resolve_left (by decide)

end Digraph

end Reflow
