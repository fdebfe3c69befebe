import Reflow.Proofs.Graph.Order

namespace Reflow.Digraph

variable {α : Type} [DecidableEq α] {g : Digraph α} {root : α} {path succs : List α} {s t : Search α}

inductive Explores (g : Digraph α) : List α → List α → Search α → Search α → Prop
  | done (path : List α) (s : Search α) : Explores g path [] s s
  | back {a b : α} {path succs : List α} {s t : Search α} (seen : b ∈ s.seen) (underway : b ∈ a :: path)
      (rest : Explores g (a :: path) succs { s with feedback := s.feedback.insert (a, b) } t) :
      Explores g (a :: path) (b :: succs) s t
  | pass {b : α} {path succs : List α} {s t : Search α} (seen : b ∈ s.seen) (left : b ∉ path)
      (rest : Explores g path succs s t) : Explores g path (b :: succs) s t
  | enter {b : α} {path succs : List α} {s t u : Search α} (new : b ∉ s.seen)
      (inner : Explores g (b :: path) (g.succs b) { s with seen := b :: s.seen } t)
      (rest : Explores g path succs { t with order := b :: t.order } u) : Explores g path (b :: succs) s u

section

variable (explores : g.Explores path succs s t)
include explores

theorem Explores.seen_subset : s.seen ⊆ t.seen := by
  induction explores with
  | done => exact .refl _
  | back _ _ _ ih => exact ih
  | pass _ _ _ ih => exact ih
  | enter _ _ _ ih ih' => exact fun a mem => ih' (ih (.tail _ mem))

theorem Explores.order_subset : s.order ⊆ t.order := by
  induction explores with
  | done => exact .refl _
  | back _ _ _ ih => exact ih
  | pass _ _ _ ih => exact ih
  | enter _ _ _ ih ih' => exact fun a mem => ih' (.tail _ (ih mem))

theorem Explores.feedback_subset : s.feedback ⊆ t.feedback := by
  induction explores with
  | done => exact .refl _
  | back _ _ _ ih => exact fun edge mem => ih (List.mem_insert_of_mem mem)
  | pass _ _ _ ih => exact ih
  | enter _ _ _ ih ih' => exact fun edge mem => ih' (ih mem)

end

section Recursion

variable {good : α → Prop} (along : ∀ a, good a → ∀ b ∈ g.succs a, good b) (listed : ∀ a, good a → a ∈ g.nodes)

include along listed

theorem visitWithin_explores (fuel : Nat) (path : List α) (a : α) (s : Search α)
    (enough : (g.nodes.filter (· ∉ s.seen)).length ≤ fuel) (here : good a) (new : a ∉ s.seen) :
    ∃ t, g.Explores (a :: path) (g.succs a) { s with seen := a :: s.seen } t ∧
      g.visitWithin fuel path a s = { t with order := a :: t.order } := by
  induction fuel generalizing path a s with
  | zero =>
    have some := length_unseen_cons (listed a here) new
    omega
  | succ fuel ih =>
    -- Every visit along these edges enters a node and leaves the others with less to enter.
    have follow (succs : List α) (all : ∀ b ∈ succs, good b) (t : Search α)
        (room : (g.nodes.filter (· ∉ t.seen)).length ≤ fuel) :
        g.Explores (a :: path) succs t (succs.foldl (followEdge (g.visitWithin fuel (a :: path)) (a :: path) a) t) := by
      induction succs generalizing t with
      | nil => exact .done _ t
      | cons b succs ih' =>
        have others : ∀ c ∈ succs, good c := fun c mem => all c (.tail _ mem)
        rw [List.foldl_cons]
        by_cases seen : b ∈ t.seen
        · by_cases underway : b ∈ a :: path
          · have marked : followEdge (g.visitWithin fuel (a :: path)) (a :: path) a t b =
                { t with feedback := t.feedback.insert (a, b) } := by
              by_cases known : (a, b) ∈ t.feedback
              · simp [followEdge, seen, known]
              · simp [followEdge, seen, known, underway]
            rw [marked]
            exact .back seen underway (ih' others _ room)
          · have kept : followEdge (g.visitWithin fuel (a :: path)) (a :: path) a t b = t := by
              simp [followEdge, seen, underway]
            rw [kept]
            exact .pass seen underway (ih' others t room)
        · obtain ⟨u, inner, visited⟩ := ih (a :: path) b t room (all b (.head _)) seen
          have entered : followEdge (g.visitWithin fuel (a :: path)) (a :: path) a t b =
              { u with order := b :: u.order } := by
            rw [← visited]
            simp [followEdge, seen]
          rw [entered]
          have grows : t.seen ⊆ u.seen := fun c mem => inner.seen_subset (.tail _ mem)
          exact .enter seen inner (ih' others _ ((length_unseen_le grows).trans room))
    have room := length_unseen_cons (listed a here) new
    exact ⟨_, follow (g.succs a) (along a here) { s with seen := a :: s.seen } (by simp only; omega), rfl⟩

end Recursion

variable (listed : ∀ a, g.Reaches root a → a ∈ g.nodes)

include listed in
theorem search_explores : g.Explores [] [root] {} (g.search root) := by
  have along : ∀ a, g.Reaches root a → ∀ b ∈ g.succs a, g.Reaches root b :=
    fun a reached b edge => reached.trans (.of_edge edge)
  obtain ⟨t, inner, visited⟩ := visitWithin_explores along listed (g.nodes.length + 1) [] root {}
    (by simp) (.refl root) (by simp)
  rw [search, visited]
  exact .enter (by simp) inner (.done [] _)

def unseenTurns (g : Digraph α) (seen : List α) : Nat :=
  ((g.nodes.filter (· ∉ seen)).map fun a => (g.succs a).length + 1).sum

theorem unseenTurns_nil : g.unseenTurns [] = g.nodes.length + g.edgeCount := by
  have counts (nodes : List α) : (nodes.map fun a => (g.succs a).length + 1).sum =
      nodes.length + (nodes.flatMap g.succs).length := by
    induction nodes with
    | nil => rfl
    | cons _ _ ih =>
      simp only [List.map_cons, List.sum_cons, List.length_cons, List.flatMap_cons, List.length_append, ih]
      omega
  simp [unseenTurns, edgeCount, counts]

theorem unseenTurns_cons {seen : List α} {a : α} (mem : a ∈ g.nodes) (new : a ∉ seen) :
    g.unseenTurns (a :: seen) + (g.succs a).length + 1 ≤ g.unseenTurns seen := by
  obtain ⟨before, after, split⟩ := List.append_of_mem mem
  have drops (nodes : List α) : ((nodes.filter (· ∉ a :: seen)).map fun b => (g.succs b).length + 1).sum ≤
      ((nodes.filter (· ∉ seen)).map fun b => (g.succs b).length + 1).sum := by
    refine List.Sublist.sum_le_sum ?_ (by simp)
    refine List.Sublist.map _ (List.monotone_filter_right _ ?_)
    simp +contextual
  have first := drops before
  have second := drops after
  simp only [unseenTurns, split, List.filter_append, List.filter_cons, List.map_append, List.sum_append]
  simp only [List.mem_cons, true_or, not_true_eq_false, decide_false, new, not_false_eq_true,
    decide_true, if_true, List.map_cons, List.sum_cons, Bool.false_eq_true, if_false] at *
  omega

theorem Explores.unwinds {good : α → Prop} (along : ∀ a, good a → ∀ b ∈ g.succs a, good b)
    (listed : ∀ a, good a → a ∈ g.nodes) (explores : g.Explores path succs s t) (all : ∀ b ∈ succs, good b) :
    ∃ turns, turns + g.unseenTurns t.seen ≤ succs.length + g.unseenTurns s.seen ∧
      ∀ fuel stack, g.unwindWithin (turns + fuel) (succs.map .enter ++ stack) s.seen s.order =
        g.unwindWithin fuel stack t.seen t.order := by
  induction explores with
  | done => exact ⟨0, by simp, fun fuel stack => by simp⟩
  | @back _ _ _ _ _ _ seen _ _ ih =>
    obtain ⟨turns, bound, unwinds⟩ := ih fun c mem => all c (.tail _ mem)
    refine ⟨turns + 1, by simp only [List.length_cons] at bound ⊢; omega, fun fuel stack => ?_⟩
    rw [Nat.add_right_comm, List.map_cons, List.cons_append, unwindWithin, if_pos seen]
    exact unwinds fuel stack
  | @pass _ _ _ _ _ seen _ _ ih =>
    obtain ⟨turns, bound, unwinds⟩ := ih fun c mem => all c (.tail _ mem)
    refine ⟨turns + 1, by simp only [List.length_cons]; omega, fun fuel stack => ?_⟩
    rw [Nat.add_right_comm, List.map_cons, List.cons_append, unwindWithin, if_pos seen]
    exact unwinds fuel stack
  | @enter b _ _ _ _ _ new _ _ ih ih' =>
    -- One turn enters the node, one leaves it behind the turns of its successors; its own share pays for both.
    have here : good b := all b (.head _)
    obtain ⟨inner, innerBound, unwinds⟩ := ih (along b here)
    obtain ⟨rest, restBound, unwinds'⟩ := ih' fun c mem => all c (.tail _ mem)
    have drops := unseenTurns_cons (listed b here) new
    refine ⟨inner + (rest + 1) + 1, ?_, fun fuel stack => ?_⟩
    · simp only [List.length_cons] at innerBound restBound ⊢
      omega
    · have turns : inner + (rest + 1) + 1 + fuel = inner + ((rest + fuel) + 1) + 1 := by omega
      rw [turns, List.map_cons, List.cons_append, unwindWithin, if_neg new, unwinds, unwindWithin]
      exact unwinds' fuel stack

include listed in
theorem reversePostOrder_eq : g.reversePostOrder root = (g.search root).order := by
  have along : ∀ a, g.Reaches root a → ∀ b ∈ g.succs a, g.Reaches root b :=
    fun a reached b edge => reached.trans (.of_edge edge)
  obtain ⟨turns, bound, unwinds⟩ := (search_explores listed).unwinds along listed (by simpa using .refl root)
  have enough : turns ≤ 1 + g.nodes.length + g.edgeCount := by
    simp only [List.length_singleton, unseenTurns_nil] at bound
    omega
  obtain ⟨fuel, split⟩ := Nat.exists_eq_add_of_le enough
  have unwound := unwinds fuel []
  simp only [List.map_singleton, List.append_nil] at unwound
  rw [reversePostOrder, split, unwound]
  cases fuel <;> rfl

/-- How a search lies in its order so far: what is entered is under way or left, and the edges of a node that is left
are feedback edges or lead to nodes left before it. -/
structure Nests (g : Digraph α) (path : List α) (s : Search α) : Prop where
  left : ∀ b ∈ s.seen, b ∈ path ∨ b ∈ s.order
  onward : ∀ before a after, s.order = before ++ a :: after → ∀ b ∈ g.succs a, (a, b) ∈ s.feedback ∨ b ∈ after

omit [DecidableEq α] in
theorem Nests.leave {a : α} (nests : g.Nests (a :: path) s)
    (followed : ∀ b ∈ g.succs a, (a, b) ∈ s.feedback ∨ b ∈ s.order) :
    g.Nests path { s with order := a :: s.order } where
  left b seen := by
    rcases nests.left b seen with underway | left
    · rcases List.mem_cons.1 underway with rfl | outer
      · exact .inr (.head _)
      · exact .inl outer
    · exact .inr (.tail _ left)
  onward before c after split b edge := by
    cases before with
    | nil =>
      obtain ⟨rfl, rfl⟩ := List.cons.inj split
      exact followed b edge
    | cons d before => exact nests.onward before c after (List.cons.inj split).2 b edge

theorem Explores.nests (explores : g.Explores path succs s t) (nests : g.Nests path s) :
    g.Nests path t ∧ ∀ a ∈ path.head?, ∀ b ∈ succs, (a, b) ∈ t.feedback ∨ b ∈ t.order := by
  induction explores with
  | done => exact ⟨nests, by simp⟩
  | @back a b path _ s _ _ _ rest ih =>
    have marked : g.Nests (a :: path) { s with feedback := s.feedback.insert (a, b) } := by
      refine ⟨nests.left, fun before c after split d edge => ?_⟩
      rcases nests.onward before c after split d edge with known | later
      · exact .inl (List.mem_insert_of_mem known)
      · exact .inr later
    obtain ⟨final, followed⟩ := ih marked
    refine ⟨final, fun c head d mem => ?_⟩
    rcases List.mem_cons.1 mem with rfl | mem
    · obtain rfl : a = c := by simpa using head
      exact .inl (rest.feedback_subset List.mem_insert_self)
    · exact followed c head d mem
  | @pass _ _ _ _ _ seen outside rest ih =>
    -- A node that is seen and not under way was left before.
    obtain ⟨final, followed⟩ := ih nests
    refine ⟨final, fun c head d mem => ?_⟩
    rcases List.mem_cons.1 mem with rfl | mem
    · exact .inr (rest.order_subset ((nests.left d seen).resolve_left outside))
    · exact followed c head d mem
  | @enter b path _ s _ _ _ _ rest ih ih' =>
    have entered : g.Nests (b :: path) { s with seen := b :: s.seen } := by
      refine ⟨fun c seen => ?_, nests.onward⟩
      rcases List.mem_cons.1 seen with rfl | seen
      · exact .inl (.head _)
      · exact (nests.left c seen).imp_left (.tail _)
    obtain ⟨inner, explored⟩ := ih entered
    obtain ⟨final, followed⟩ := ih' (inner.leave (explored b rfl))
    refine ⟨final, fun c head d mem => ?_⟩
    rcases List.mem_cons.1 mem with rfl | mem
    · exact .inr (rest.order_subset (.head _))
    · exact followed c head d mem

include listed in
theorem search_nests : g.Nests [] (g.search root) :=
  ((search_explores listed).nests ⟨by simp, by simp⟩).1

theorem Explores.feedback_edges (explores : g.Explores path succs s t) (edges : ∀ a ∈ path.head?, succs ⊆ g.succs a)
    (known : ∀ edge ∈ s.feedback, edge.2 ∈ g.succs edge.1) : ∀ edge ∈ t.feedback, edge.2 ∈ g.succs edge.1 := by
  induction explores with
  | done => exact known
  | back _ _ _ ih =>
    refine ih (fun c head d mem => edges c head (.tail _ mem)) fun edge mem => ?_
    rcases List.mem_insert_iff.1 mem with rfl | old
    · exact edges _ rfl (.head _)
    · exact known edge old
  | pass _ _ _ ih => exact ih (fun c head d mem => edges c head (.tail _ mem)) known
  | @enter b _ _ _ _ _ _ _ _ ih ih' =>
    have inner := ih (by rintro c ⟨⟩; exact .refl _) known
    exact ih' (fun c head d mem => edges c head (.tail _ mem)) inner

omit [DecidableEq α] in
theorem Trail.reaches {a b : α} (trail : g.Trail root (a :: path)) (mem : b ∈ a :: path) : g.Reaches b a := by
  generalize same : a :: path = nodes at trail mem
  induction trail generalizing a path with
  | root =>
    obtain ⟨rfl, rfl⟩ := List.cons.inj same
    obtain rfl := List.mem_singleton.1 mem
    exact .refl b
  | step _ edge ih =>
    obtain ⟨rfl, rfl⟩ := List.cons.inj same
    rcases List.mem_cons.1 mem with rfl | earlier
    · exact .refl b
    · exact (ih rfl earlier).trans (.of_edge edge)

include listed in
theorem search_feedback_cycle {a b : α} (mem : (a, b) ∈ (g.search root).feedback) :
    b ∈ g.succs a ∧ g.Reaches root a ∧ g.Reaches b a := by
  obtain ⟨path, trail, -, underway⟩ := search_marks.back _ mem (by simp)
  have edges := (search_explores listed).feedback_edges (by simp) (by simp)
  exact ⟨edges _ mem, ⟨_, trail.path⟩, trail.reaches underway⟩

theorem idxOf_eq_of_split {nodes before after : List α} {a : α} (nodup : nodes.Nodup)
    (split : nodes = before ++ a :: after) : nodes.idxOf a = before.length := by
  have outside : a ∉ before := by
    rw [split] at nodup
    exact fun mem => (List.nodup_append.1 nodup).2.2 a mem a (.head _) rfl
  rw [split, List.idxOf_append_of_notMem outside, List.idxOf_cons_self, Nat.add_zero]

include listed in
theorem mem_feedback_iff {a b : α} (reached : g.Reaches root a) (edge : b ∈ g.succs a) :
    (a, b) ∈ (g.search root).feedback ↔ (g.search root).order.idxOf b ≤ (g.search root).order.idxOf a := by
  obtain ⟨members, nodup⟩ := mem_search_order_iff listed
  constructor
  · intro back
    obtain ⟨before, after, split, later⟩ := search_precedes _ back
    have outside : a ∉ before := by
      rw [split] at nodup
      exact fun mem => (List.nodup_append.1 nodup).2.2 a mem a later rfl
    rw [idxOf_eq_of_split nodup split, split, List.idxOf_append_of_notMem outside]
    exact Nat.le_add_right _ _
  · intro before
    by_contra forward
    obtain ⟨front, back, split⟩ := List.append_of_mem ((members a).2 reached)
    have behind := ((search_nests listed).onward front a back split b edge).resolve_left forward
    obtain ⟨middle, rest, rfl⟩ := List.append_of_mem behind
    have split' : (g.search root).order = (front ++ a :: middle) ++ b :: rest := by simp [split]
    rw [idxOf_eq_of_split nodup split, idxOf_eq_of_split nodup split'] at before
    simp at before

end Reflow.Digraph
