import Reflow.Graph.DepthFirst
import Reflow.Proofs.Graph.Dominance

namespace Reflow.Digraph

variable {α : Type} {g : Digraph α} {root : α}

/-- What a finished part of a search adds: the nodes it enters have a property and are left again, once each, and their
successors are entered too. -/
structure Extends (g : Digraph α) (good : α → Prop) (s t : Search α) : Prop where
  seen : ∀ a ∈ s.seen, a ∈ t.seen
  good : ∀ a ∈ t.seen, a ∉ s.seen → good a
  order : ∀ a, a ∈ t.order ↔ a ∈ s.order ∨ a ∈ t.seen ∧ a ∉ s.seen
  closed : ∀ a ∈ t.seen, a ∉ s.seen → ∀ b ∈ g.succs a, b ∈ t.seen
  nodup : s.order.Nodup → (∀ a ∈ s.order, a ∈ s.seen) → t.order.Nodup

variable {good : α → Prop}

theorem Extends.refl (s : Search α) : g.Extends good s s :=
  ⟨fun _ => id, fun _ seen new => absurd seen new, by simp, fun _ seen new => absurd seen new, fun nodup _ => nodup⟩

theorem Extends.trans {s t u : Search α} (first : g.Extends good s t) (second : g.Extends good t u) :
    g.Extends good s u := by
  refine ⟨fun a seen => second.seen a (first.seen a seen), fun a seen new => ?_, fun a => ?_,
    fun a seen new b edge => ?_, fun nodup left => ?_⟩
  · by_cases between : a ∈ t.seen
    · exact first.good a between new
    · exact second.good a seen between
  · rw [second.order, first.order]
    have earlier := first.seen a
    have later := second.seen a
    tauto
  · by_cases between : a ∈ t.seen
    · exact second.seen b (first.closed a between new b edge)
    · exact second.closed a seen between b edge
  · refine second.nodup (first.nodup nodup left) fun a mem => ?_
    rcases (first.order a).1 mem with mem | ⟨seen, -⟩
    · exact first.seen a (left a mem)
    · exact seen

section Visits

variable [DecidableEq α]

theorem extends_followEdges {visit : α → Search α → Search α} {path : List α} {a : α} {measure : Search α → Prop}
    (kept : ∀ s t, measure s → g.Extends good s t → measure t)
    (visits : ∀ b s, good b → b ∉ s.seen → measure s → g.Extends good s (visit b s) ∧ b ∈ (visit b s).seen)
    (succs : List α) (s : Search α) (all : ∀ b ∈ succs, good b) (holds : measure s) :
    g.Extends good s (succs.foldl (followEdge visit path a) s) ∧
      ∀ b ∈ succs, b ∈ (succs.foldl (followEdge visit path a) s).seen := by
  induction succs generalizing s with
  | nil => exact ⟨.refl s, by simp⟩
  | cons b succs ih =>
    rw [List.foldl_cons]
    have step : g.Extends good s (followEdge visit path a s b) ∧ b ∈ (followEdge visit path a s b).seen := by
      unfold followEdge
      split
      · rename_i seen
        split
        · exact ⟨⟨fun _ => id, fun _ seen new => absurd seen new, by simp,
            fun _ seen new => absurd seen new, fun nodup _ => nodup⟩, seen⟩
        · exact ⟨.refl s, seen⟩
      · rename_i new
        exact visits b s (all b (by simp)) new holds
    obtain ⟨rest, reached⟩ := ih (followEdge visit path a s b)
      (fun c mem => all c (by simp [mem])) (kept _ _ holds step.1)
    refine ⟨step.1.trans rest, fun c mem => ?_⟩
    rcases List.mem_cons.1 mem with rfl | mem
    · exact rest.seen c step.2
    · exact reached c mem

theorem length_unseen_le {seen more : List α} (grows : seen ⊆ more) :
    (g.nodes.filter (· ∉ more)).length ≤ (g.nodes.filter (· ∉ seen)).length := by
  refine List.Sublist.length_le (List.monotone_filter_right _ fun b unseen => ?_)
  simp only [decide_eq_true_eq] at unseen ⊢
  exact fun seen => unseen (grows seen)

theorem length_unseen_cons {seen : List α} {a : α} (listed : a ∈ g.nodes) (new : a ∉ seen) :
    (g.nodes.filter (· ∉ a :: seen)).length < (g.nodes.filter (· ∉ seen)).length := by
  have split : g.nodes.filter (· ∉ a :: seen) = (g.nodes.filter (· ∉ seen)).filter (· ≠ a) := by
    rw [List.filter_filter]
    refine List.filter_congr fun b _ => ?_
    simp [not_or]
  rw [split]
  exact List.length_filter_lt_length_iff_exists.2 ⟨a, by simp [listed, new], by simp⟩

theorem visitWithin_extends (along : ∀ a, good a → ∀ b ∈ g.succs a, good b)
    (listed : ∀ a, good a → a ∈ g.nodes) (fuel : Nat) (path : List α) (a : α) (s : Search α)
    (enough : (g.nodes.filter (· ∉ s.seen)).length ≤ fuel) (here : good a) (new : a ∉ s.seen) :
    g.Extends good s (g.visitWithin fuel path a s) ∧ a ∈ (g.visitWithin fuel path a s).seen := by
  induction fuel generalizing path a s with
  | zero =>
    have some := length_unseen_cons (listed a here) new
    omega
  | succ fuel ih =>
    have shrinks := length_unseen_cons (listed a here) new
    rw [visitWithin]
    obtain ⟨extends_, reached⟩ := extends_followEdges (g := g)
      (fun t u (holds : (g.nodes.filter (· ∉ t.seen)).length ≤ fuel) (ext : g.Extends good t u) =>
        (length_unseen_le ext.seen).trans holds)
      (fun b t here new holds => ih (a :: path) b t holds here new)
      (g.succs a) { s with seen := a :: s.seen } (along a here) (by simp only; omega)
    generalize (g.succs a).foldl (followEdge (g.visitWithin fuel (a :: path)) (a :: path) a)
      { s with seen := a :: s.seen } = followed at extends_ reached
    have entered : a ∈ followed.seen := extends_.seen a (by simp)
    refine ⟨⟨fun b seen => extends_.seen b (by simp [seen]), fun b seen fresh => ?_, fun b => ?_,
      fun b seen fresh c edge => ?_, fun nodup left => ?_⟩, entered⟩
    · by_cases same : b = a
      · exact same ▸ here
      · exact extends_.good b seen (by simp [same, fresh])
    · simp only [List.mem_cons, extends_.order]
      by_cases same : b = a
      · subst same
        simp [entered, new]
      · simp [same]
    · by_cases same : b = a
      · subst same
        exact reached c edge
      · exact extends_.closed b seen (by simp [same, fresh]) c edge
    · refine List.nodup_cons.2 ⟨fun mem => ?_, extends_.nodup nodup fun b mem => ?_⟩
      · rcases (extends_.order a).1 mem with mem | ⟨-, fresh⟩
        · exact new (left a mem)
        · exact fresh (by simp)
      · exact .tail _ (left b mem)

theorem mem_search_seen_iff (listed : ∀ a, g.Reaches root a → a ∈ g.nodes) (a : α) :
    a ∈ (g.search root).seen ↔ g.Reaches root a := by
  have along : ∀ a, g.Reaches root a → ∀ b ∈ g.succs a, g.Reaches root b :=
    fun a reached b edge => reached.trans (.of_edge edge)
  obtain ⟨ext, entered⟩ := visitWithin_extends along listed (g.nodes.length + 1) [] root {}
    (by simp) (.refl root) (by simp)
  constructor
  · exact fun seen => ext.good a seen (by simp)
  · rintro ⟨nodes, path⟩
    exact path.forall_mem entered (fun b seen c edge => ext.closed b seen (by simp) c edge) a path.right_mem

theorem mem_search_order_iff (listed : ∀ a, g.Reaches root a → a ∈ g.nodes) :
    (∀ a, a ∈ (g.search root).order ↔ g.Reaches root a) ∧ (g.search root).order.Nodup := by
  have along : ∀ a, g.Reaches root a → ∀ b ∈ g.succs a, g.Reaches root b :=
    fun a reached b edge => reached.trans (.of_edge edge)
  obtain ⟨ext, -⟩ := visitWithin_extends along listed (g.nodes.length + 1) [] root {} (by simp) (.refl root) (by simp)
  refine ⟨fun a => ?_, ext.nodup (by simp) (by simp)⟩
  have members : a ∈ (g.search root).order ↔ a ∈ (g.search root).seen := by
    simpa [search] using ext.order a
  rw [members, mem_search_seen_iff listed]

inductive Trail (g : Digraph α) (root : α) : List α → Prop
  | root : Trail g root [root]
  | step {a b : α} {rest : List α} (before : Trail g root (b :: rest)) (edge : a ∈ g.succs b) :
      Trail g root (a :: b :: rest)

omit [DecidableEq α] in
theorem Trail.exists_suffix {path : List α} {b : α} (trail : g.Trail root path) (mem : b ∈ path) :
    ∃ before rest, path = before ++ b :: rest ∧ g.Trail root (b :: rest) := by
  induction trail with
  | root =>
    obtain rfl := List.mem_singleton.1 mem
    exact ⟨[], [], rfl, .root⟩
  | @step a c rest trail edge ih =>
    rcases List.mem_cons.1 mem with rfl | earlier
    · exact ⟨[], c :: rest, rfl, .step trail edge⟩
    · obtain ⟨before, after, split, suffix⟩ := ih earlier
      exact ⟨a :: before, after, by rw [split, List.cons_append], suffix⟩

omit [DecidableEq α] in
theorem Trail.path {path : List α} {a : α} (trail : g.Trail root (a :: path)) : g.Path root a (a :: path).reverse := by
  generalize same : a :: path = nodes at trail
  induction trail generalizing a path with
  | root =>
    obtain ⟨rfl, rfl⟩ := List.cons.inj same
    exact .single a
  | step _ edge ih =>
    obtain ⟨rfl, rfl⟩ := List.cons.inj same
    rw [List.reverse_cons]
    exact (ih rfl).snoc edge

def LeadsBack (g : Digraph α) (root : α) (edge : α × α) : Prop :=
  ∃ path, g.Trail root (edge.1 :: path) ∧ (edge.1 :: path).Nodup ∧ edge.2 ∈ edge.1 :: path

/-- What a part of a search adds to the feedback edges: only edges that lead back, and of the nodes it enters all edges
to their dominators. -/
structure Marks (g : Digraph α) (root : α) (s t : Search α) : Prop where
  seen : s.seen ⊆ t.seen
  feedback : s.feedback ⊆ t.feedback
  back : ∀ edge ∈ t.feedback, edge ∉ s.feedback → g.LeadsBack root edge
  dominators : ∀ a ∈ t.seen, a ∉ s.seen → ∀ b ∈ g.succs a, g.Dominates root b a → (a, b) ∈ t.feedback

omit [DecidableEq α] in
theorem Marks.refl (s : Search α) : g.Marks root s s :=
  ⟨.refl _, .refl _, fun _ old new => absurd old new, fun _ old new => absurd old new⟩

omit [DecidableEq α] in
theorem Marks.trans {s t u : Search α} (first : g.Marks root s t) (second : g.Marks root t u) : g.Marks root s u where
  seen _ old := second.seen (first.seen old)
  feedback _ old := second.feedback (first.feedback old)
  back edge found new := by
    by_cases between : edge ∈ t.feedback
    · exact first.back edge between new
    · exact second.back edge found between
  dominators a entered new b edge dominates := by
    by_cases between : a ∈ t.seen
    · exact second.feedback (first.dominators a between new b edge dominates)
    · exact second.dominators a entered between b edge dominates

theorem visitWithin_marks (fuel : Nat) (path : List α) (a : α) (s : Search α) (trail : g.Trail root (a :: path))
    (nodup : (a :: path).Nodup) (underway : path ⊆ s.seen) : g.Marks root s (g.visitWithin fuel path a s) := by
  induction fuel generalizing path a s with
  | zero => exact .refl s
  | succ fuel ih =>
    have step (t : Search α) (underway : a :: path ⊆ t.seen) (b : α) (edge : b ∈ g.succs a) :
        g.Marks root t (followEdge (g.visitWithin fuel (a :: path)) (a :: path) a t b) ∧ (b ∈ a :: path →
            (a, b) ∈ (followEdge (g.visitWithin fuel (a :: path)) (a :: path) a t b).feedback) := by
      unfold followEdge
      split
      · split
        · rename_i onPath
          refine ⟨⟨.refl _, List.subset_cons_self .., ?_, ?_⟩, fun _ => .head _⟩
          · intro edge found new
            rw [(List.mem_cons.1 found).resolve_right new]
            exact ⟨path, trail, nodup, onPath.1⟩
          · exact fun _ old new => absurd old new
        · rename_i known
          exact ⟨.refl t, fun onPath => not_not.1 fun new => known ⟨onPath, new⟩⟩
      · rename_i new
        refine ⟨ih (a :: path) b t (.step trail edge) ?_ underway, fun onPath => absurd (underway onPath) new⟩
        exact List.nodup_cons.2 ⟨fun onPath => new (underway onPath), nodup⟩
    have follow (succs : List α) (edges : succs ⊆ g.succs a) (t : Search α) (underway : a :: path ⊆ t.seen) :
        g.Marks root t (succs.foldl (followEdge (g.visitWithin fuel (a :: path)) (a :: path) a) t) ∧
          ∀ b ∈ succs, b ∈ a :: path → (a, b) ∈
            (succs.foldl (followEdge (g.visitWithin fuel (a :: path)) (a :: path) a) t).feedback := by
      induction succs generalizing t with
      | nil => exact ⟨.refl t, by simp⟩
      | cons b _ ih' =>
        obtain ⟨first, marked⟩ := step t underway b (edges (.head _))
        obtain ⟨rest, others⟩ := ih' (fun c mem => edges (.tail _ mem)) _ fun c mem => first.seen (underway mem)
        refine ⟨first.trans rest, ?_⟩
        intro c mem onPath
        rcases List.mem_cons.1 mem with rfl | mem
        · exact rest.feedback (marked onPath)
        · exact others c mem onPath
    have entered : a :: path ⊆ a :: s.seen := List.cons_subset_cons a underway
    obtain ⟨marks, marked⟩ := follow (g.succs a) (.refl _) { s with seen := a :: s.seen } entered
    rw [visitWithin]
    refine ⟨fun b old => marks.seen (.tail _ old), marks.feedback, marks.back, ?_⟩
    intro b found new c edge dominates
    by_cases same : b = a
    · subst same
      exact marked c edge (List.mem_reverse.1 (dominates _ trail.path))
    · exact marks.dominators b found (by simp [same, new]) c edge dominates

theorem search_marks : g.Marks root {} (g.search root) :=
  visitWithin_marks _ [] root {} .root (by simp) (by simp)

theorem search_feedback (a b : α) (mem : (a, b) ∈ (g.search root).feedback) :
    b = root ∨ ∃ c, c ≠ a ∧ b ∈ g.succs c := by
  obtain ⟨path, trail, nodup, onPath⟩ := search_marks.back _ mem (by simp)
  obtain ⟨before, rest, split, suffix⟩ := trail.exists_suffix onPath
  generalize same : b :: rest = nodes at suffix
  cases suffix with
  | root => exact .inl (List.cons.inj same).1
  | @step _ c _ _ edge =>
    obtain ⟨rfl, rfl⟩ := List.cons.inj same
    refine .inr ⟨c, ?_, edge⟩
    rintro rfl
    -- The source would be under way twice.
    rw [split] at nodup
    cases before with
    | nil => simp_all
    | cons =>
      have first_eq := (List.cons.inj split).1
      simp_all

theorem mem_feedback_of_dominates (listed : ∀ a, g.Reaches root a → a ∈ g.nodes) {a b : α} (reached : g.Reaches root a)
    (edge : b ∈ g.succs a) (dominates : g.Dominates root b a) : (a, b) ∈ (g.search root).feedback :=
  search_marks.dominators a ((mem_search_seen_iff listed a).2 reached) (by simp) b edge dominates

theorem eq_of_mem_feedback {a b : α} (mem : (a, b) ∈ (g.search root).feedback)
    (dominates : g.Dominates root a b) : a = b := by
  obtain ⟨path, trail, nodup, onPath⟩ := search_marks.back _ mem (by simp)
  obtain ⟨before, rest, split, suffix⟩ := trail.exists_suffix onPath
  -- The way to the target on the trail visits the source, which only starts the trail.
  have visited : a ∈ b :: rest := List.mem_reverse.1 (dominates _ suffix.path)
  cases before with
  | nil => exact (List.cons.inj split).1
  | cons _ before =>
    have outside : a ∉ path := (List.nodup_cons.1 nodup).1
    rw [(List.cons.inj split).2] at outside
    exact absurd (List.mem_append_right before visited) outside

def Sprouts (g : Digraph α) (first : α → Prop) (new : List α) : Prop :=
  ∀ before b after, new = before ++ b :: after → first b ∨ ∃ c ∈ before, b ∈ g.succs c

omit [DecidableEq α] in
theorem Sprouts.append {first : α → Prop} {new more : List α} (left : g.Sprouts first new)
    (right : g.Sprouts first more) : g.Sprouts first (new ++ more) := by
  intro before b after split
  rcases List.append_eq_append_iff.1 split with ⟨middle, rfl, same⟩ | ⟨middle, same, -⟩
  · rcases right middle b after same with start | ⟨c, mem, edge⟩
    · exact .inl start
    · exact .inr ⟨c, List.mem_append_right _ mem, edge⟩
  · cases middle with
    | nil =>
      rw [List.append_nil] at same
      subst same
      rcases right [] b after (by simpa using split) with start | ⟨c, mem, edge⟩
      · exact .inl start
      · simp at mem
    | cons d middle =>
      have here : b = d := by
        have heads := congrArg (fun nodes => nodes[before.length]?) split
        simpa [same] using heads.symm
      exact left before b middle (by rw [same, here])

omit [DecidableEq α] in
theorem Sprouts.cons {a : α} {new : List α} (sprouts : g.Sprouts (· ∈ g.succs a) new) :
    g.Sprouts (· = a) (a :: new) := by
  intro before b after split
  cases before with
  | nil => exact .inl (List.cons.inj split).1.symm
  | cons d before =>
    obtain ⟨rfl, rest⟩ := List.cons.inj split
    rcases sprouts before b after rest with edge | ⟨c, mem, edge⟩
    · exact .inr ⟨a, .head _, edge⟩
    · exact .inr ⟨c, .tail _ mem, edge⟩

theorem visitWithin_sprouts (fuel : Nat) (path : List α) (a : α) (s : Search α) :
    ∃ new, (g.visitWithin fuel path a s).order = new ++ s.order ∧ g.Sprouts (· = a) new := by
  induction fuel generalizing path a s with
  | zero => exact ⟨[], rfl, by simp [Sprouts]⟩
  | succ fuel ih =>
    have follow (succs : List α) (edges : succs ⊆ g.succs a) (t : Search α) :
        ∃ new, (succs.foldl (followEdge (g.visitWithin fuel (a :: path)) (a :: path) a) t).order =
          new ++ t.order ∧ g.Sprouts (· ∈ g.succs a) new := by
      induction succs generalizing t with
      | nil => exact ⟨[], rfl, by simp [Sprouts]⟩
      | cons b succs ih' =>
        have step : ∃ new, (followEdge (g.visitWithin fuel (a :: path)) (a :: path) a t b).order =
            new ++ t.order ∧ g.Sprouts (· ∈ g.succs a) new := by
          unfold followEdge
          split
          · refine ⟨[], ?_, by simp [Sprouts]⟩
            split <;> rfl
          · obtain ⟨new, order, sprouts⟩ := ih (a :: path) b t
            refine ⟨new, order, fun before c after split => ?_⟩
            rcases sprouts before c after split with rfl | later
            · exact .inl (edges (.head _))
            · exact .inr later
        obtain ⟨new, order, sprouts⟩ := step
        obtain ⟨more, order', sprouts'⟩ := ih' (fun c mem => edges (.tail _ mem))
          (followEdge (g.visitWithin fuel (a :: path)) (a :: path) a t b)
        exact ⟨more ++ new, by rw [List.foldl_cons, order', order, List.append_assoc], sprouts'.append sprouts⟩
    obtain ⟨new, order, sprouts⟩ := follow (g.succs a) (.refl _) { s with seen := a :: s.seen }
    exact ⟨a :: new, by rw [visitWithin, order, List.cons_append], sprouts.cons⟩

theorem search_sprouts : g.Sprouts (· = root) (g.search root).order := by
  obtain ⟨new, order, sprouts⟩ := g.visitWithin_sprouts (g.nodes.length + 1) [] root {}
  rw [search, order, List.append_nil]
  exact sprouts

def Precedes (nodes : List α) (b a : α) : Prop :=
  ∃ before after, nodes = before ++ b :: after ∧ a ∈ b :: after

omit [DecidableEq α] in
theorem Precedes.insert (nodes : List α) {before after : List α} {a b : α} (precedes : Precedes (before ++ after) b a) :
    Precedes (before ++ (nodes ++ after)) b a := by
  obtain ⟨front, back, split, mem⟩ := precedes
  rcases List.append_eq_append_iff.1 split with ⟨middle, rfl, rfl⟩ | ⟨middle, rfl, same⟩
  · exact ⟨before ++ nodes ++ middle, back, by simp, mem⟩
  · cases middle with
    | nil =>
      obtain rfl : after = b :: back := same.symm
      exact ⟨front ++ nodes, back, by simp, mem⟩
    | cons c middle =>
      obtain ⟨rfl, rfl⟩ := List.cons.inj same
      refine ⟨front, middle ++ (nodes ++ after), by simp, ?_⟩
      rcases List.mem_cons.1 mem with rfl | mem
      · exact .head _
      · rcases List.mem_append.1 mem with mem | mem <;> simp [mem]

theorem visitWithin_precedes (fuel : Nat) (path : List α) (a : α) (s : Search α)
    (earlier : ∀ edge ∈ s.feedback, Precedes (path.reverse ++ s.order) edge.2 edge.1) :
    ∀ edge ∈ (g.visitWithin fuel path a s).feedback,
      Precedes (path.reverse ++ (g.visitWithin fuel path a s).order) edge.2 edge.1 := by
  induction fuel generalizing path a s with
  | zero => exact earlier
  | succ fuel ih =>
    have follow (succs : List α) (t : Search α)
        (known : ∀ edge ∈ t.feedback, Precedes ((a :: path).reverse ++ t.order) edge.2 edge.1) :
        ∀ edge ∈ (succs.foldl (followEdge (g.visitWithin fuel (a :: path)) (a :: path) a) t).feedback,
          Precedes ((a :: path).reverse ++
            (succs.foldl (followEdge (g.visitWithin fuel (a :: path)) (a :: path) a) t).order) edge.2 edge.1 := by
      induction succs generalizing t with
      | nil => exact known
      | cons b succs ih' =>
        rw [List.foldl_cons]
        apply ih'
        unfold followEdge
        split
        · split
          · rename_i onPath
            intro edge found
            rcases List.mem_cons.1 found with rfl | old
            · -- The source of the edge is the last one under way.
              obtain ⟨front, back, split⟩ := List.append_of_mem (List.mem_reverse.2 onPath.1)
              refine ⟨front, back ++ t.order, by rw [split, List.append_assoc, List.cons_append], ?_⟩
              have last : a ∈ (b :: back).getLast? := by
                rw [← List.getLast?_append_of_ne_nil front (by simp), ← split]
                simp
              have mem := List.mem_of_getLast? last
              rw [← List.cons_append]
              exact List.mem_append_left _ mem
            · exact known edge old
          · exact known
        · exact ih (a :: path) b t known
    have entered : ∀ edge ∈ s.feedback, Precedes ((a :: path).reverse ++ s.order) edge.2 edge.1 := by
      intro edge mem
      have inserted := (earlier edge mem).insert [a]
      rwa [List.reverse_cons, List.append_assoc]
    intro edge mem
    have precedes := follow (g.succs a) { s with seen := a :: s.seen } entered edge mem
    rwa [List.reverse_cons, List.append_assoc] at precedes

theorem search_precedes (edge : α × α) (mem : edge ∈ (g.search root).feedback) :
    Precedes (g.search root).order edge.2 edge.1 :=
  visitWithin_precedes (g.nodes.length + 1) [] root {} (by simp) edge mem

theorem exists_tree_edge (listed : ∀ a, g.Reaches root a → a ∈ g.nodes) {before after : List α} {b : α}
    (split : (g.search root).order = before ++ b :: after) (inner : b ≠ root) :
    ∃ a ∈ before, b ∈ g.succs a ∧ (a, b) ∉ (g.search root).feedback := by
  obtain ⟨a, mem, edge⟩ := (search_sprouts before b after split).resolve_left inner
  refine ⟨a, mem, edge, fun back => ?_⟩
  have nodup := (mem_search_order_iff listed).2
  obtain ⟨front, back, split', later⟩ := search_precedes (a, b) back
  rw [split] at nodup split'
  have lists : before = front ∧ after = back := by
    have unique := nodup
    simp only [List.nodup_append, List.nodup_cons] at unique
    rcases List.append_eq_append_iff.1 split' with ⟨middle, rfl, same⟩ | ⟨middle, rfl, same⟩
    · cases middle with
      | nil => simpa using same
      | cons c middle =>
        obtain ⟨rfl, rfl⟩ := List.cons.inj same
        exact absurd (show b ∈ middle ++ b :: back by simp) unique.2.1.1
    · cases middle with
      | nil => simpa using same.symm
      | cons =>
        obtain ⟨rfl, rfl⟩ := List.cons.inj same
        exact absurd rfl (unique.2.2 b (by simp) b (.head _))
  obtain ⟨rfl, rfl⟩ := lists
  exact (List.nodup_append.1 nodup).2.2 a mem a later rfl

end Visits

end Reflow.Digraph
