import Reflow.Graph.Dominators
import Reflow.Proofs.Graph.Dominance

namespace Reflow.Parents

variable {into : List (List Nat)} {parents : Parents} {i j k d e : Nat}
  {nodes : List Nat}

def graph (into : List (List Nat)) : Digraph Nat where
  nodes := List.range into.length
  succs i := (List.range into.length).filter fun j => i ∈ into.getD j []

theorem mem_graph_succs : j ∈ (graph into).succs i ↔ j < into.length ∧ i ∈ into.getD j [] := by
  simp [graph]

def Spanned (into : List (List Nat)) : Prop :=
  ∀ j, 0 < j → j < into.length → ∃ i ∈ into.getD j [], i < j

def stepsBack : List Nat → Nat
  | i :: j :: rest => (if j ≤ i then 1 else 0) + stepsBack (j :: rest)
  | _ => 0

theorem stepsBack_lt_length (nodes : List Nat) (some : nodes ≠ []) : stepsBack nodes < nodes.length := by
  induction nodes with
  | nil => exact absurd rfl some
  | cons i rest ih =>
    cases rest with
    | nil => simp [stepsBack]
    | cons =>
      have fewer := ih (by simp)
      simp only [stepsBack, List.length_cons] at fewer ⊢
      split <;> omega

theorem stepsBack_append_le (before after : List Nat) : stepsBack before ≤ stepsBack (before ++ after) := by
  induction before with
  | nil => exact Nat.zero_le _
  | cons i rest ih =>
    cases rest with
    | nil => exact Nat.zero_le _
    | cons =>
      simp only [List.cons_append, stepsBack] at ih ⊢
      omega

theorem stepsBack_snoc {g : Digraph Nat} (path : g.Path d i nodes) :
    stepsBack (nodes ++ [j]) = stepsBack nodes + if j ≤ i then 1 else 0 := by
  induction path with
  | single i => simp [stepsBack]
  | @step _ _ _ _ _ tail ih =>
    cases tail with
    | single => simp only [List.cons_append, List.nil_append, stepsBack]; omega
    | step =>
      simp only [List.cons_append, stepsBack] at ih ⊢
      omega

theorem lt_length_of_path (path : (graph into).Path 0 j nodes) (some : into ≠ []) :
    ∀ i ∈ nodes, i < into.length :=
  path.forall_mem (List.length_pos_of_ne_nil some) fun _ _ _ edge => (mem_graph_succs.1 edge).1

theorem Spanned.exists_path (spanned : Spanned into) (inside : j < into.length) :
    ∃ nodes, (graph into).Path 0 j nodes ∧ ∀ i ∈ nodes, i ≤ j := by
  induction j using Nat.strong_induction_on with
  | _ j ih =>
    cases j with
    | zero => exact ⟨[0], .single 0, by simp⟩
    | succ j =>
      obtain ⟨i, edge, earlier⟩ := spanned (j + 1) (Nat.succ_pos j) inside
      obtain ⟨nodes, path, below⟩ := ih i earlier (Nat.lt_trans earlier inside)
      refine ⟨nodes ++ [j + 1], path.snoc (mem_graph_succs.2 ⟨inside, edge⟩), fun k mem => ?_⟩
      rcases List.mem_append.1 mem with mem | mem
      · exact Nat.le_of_lt (Nat.lt_of_le_of_lt (below k mem) earlier)
      · exact Nat.le_of_eq (List.mem_singleton.1 mem)

theorem Spanned.le_of_dominates (spanned : Spanned into) (inside : j < into.length)
    (dominates : (graph into).Dominates 0 d j) : d ≤ j := by
  obtain ⟨nodes, path, below⟩ := spanned.exists_path inside
  exact below d (dominates nodes path)

inductive Above (parents : Parents) : Nat → Nat → Prop
  | refl (i : Nat) : Above parents i i
  | up {i d e : Nat} (later : 0 < i) (parent : parents.parent? i = some d) (above : Above parents e d) :
      Above parents e i

structure Rises (into : List (List Nat)) (parents : Parents) : Prop where
  length : parents.length = into.length
  first : parents.parent? 0 = some 0
  earlier : ∀ i d, 0 < i → parents.parent? i = some d → d < i ∧ (parents.parent? d).isSome
  dominated : ∀ i d e, 0 < i → parents.parent? i = some d → (graph into).Dominates 0 e i → e ≠ i →
    (graph into).Dominates 0 e d

namespace Rises

theorem lt_length (rises : Rises into parents) (known : (parents.parent? i).isSome) : i < into.length := by
  rw [← rises.length]
  by_contra outside
  simp [parent?, List.getElem?_eq_none (Nat.le_of_not_lt outside)] at known

theorem meetWithin_spec (rises : Rises into parents) (spanned : Spanned into) (fuel : Nat)
    (enough : i + j ≤ fuel) (known : (parents.parent? i).isSome) (known' : (parents.parent? j).isSome) :
    Above parents (parents.meetWithin fuel i j) i ∧ Above parents (parents.meetWithin fuel i j) j ∧
      parents.meetWithin fuel i j ≤ i ∧ parents.meetWithin fuel i j ≤ j ∧
      (parents.parent? (parents.meetWithin fuel i j)).isSome ∧
      ∀ e, (graph into).Dominates 0 e i → (graph into).Dominates 0 e j →
        (graph into).Dominates 0 e (parents.meetWithin fuel i j) := by
  induction fuel generalizing i j with
  | zero =>
    obtain ⟨rfl, rfl⟩ : i = 0 ∧ j = 0 := by omega
    exact ⟨.refl 0, .refl 0, Nat.le_refl 0, Nat.le_refl 0, known, fun _ dominates _ => dominates⟩
  | succ fuel ih =>
    rw [meetWithin]
    split
    · rename_i same
      subst same
      exact ⟨.refl i, .refl i, Nat.le_refl i, Nat.le_refl i, known, fun _ dominates _ => dominates⟩
    · split
      · rename_i later
        obtain ⟨d, parent⟩ := Option.isSome_iff_exists.1 known
        obtain ⟨lower, known⟩ := rises.earlier i d (by omega) parent
        rw [parent, Option.getD_some]
        obtain ⟨above, above', le, le', found, dominated⟩ := ih (i := d) (by omega) known known'
        refine ⟨.up (by omega) parent above, above', by omega, le', found, ?_⟩
        intro e dominates dominates'
        -- A common dominator is not the later place.
        have strict : e ≠ i := by
          have low := spanned.le_of_dominates (rises.lt_length known') dominates'
          omega
        exact dominated e (rises.dominated i d e (by omega) parent dominates strict) dominates'
      · obtain ⟨d, parent⟩ := Option.isSome_iff_exists.1 known'
        obtain ⟨lower, known'⟩ := rises.earlier j d (by omega) parent
        rw [parent, Option.getD_some]
        obtain ⟨above, above', le, le', found, dominated⟩ := ih (j := d) (by omega) known known'
        refine ⟨above, .up (by omega) parent above', le, by omega, found, ?_⟩
        intro e dominates dominates'
        have strict : e ≠ j := by
          have low := spanned.le_of_dominates (rises.lt_length known) dominates
          omega
        exact dominated e dominates (rises.dominated j d e (by omega) parent dominates' strict)

end Rises

theorem Above.trans (first : Above parents d i) (second : Above parents i j) : Above parents d j := by
  induction second with
  | refl => exact first
  | up later parent _ ih => exact .up later parent (ih first)

structure Meets (into : List (List Nat)) (parents : Parents) (places : List Nat) (d : Nat) : Prop where
  known : (parents.parent? d).isSome
  above : ∀ i ∈ places, (parents.parent? i).isSome → Above parents d i ∧ d ≤ i
  dominated : ∀ e, (∀ i ∈ places, (parents.parent? i).isSome → (graph into).Dominates 0 e i) →
    (graph into).Dominates 0 e d

theorem Rises.meetAll?_spec (rises : Rises into parents) (spanned : Spanned into) (places : List Nat) :
    (∀ d, parents.meetAll? places = some d → Meets into parents places d) ∧
      (parents.meetAll? places = none → ∀ i ∈ places, parents.parent? i = none) := by
  unfold meetAll?
  -- The fold is over the places seen so far, from the last one on.
  induction places using List.reverseRecOn with
  | nil => simp
  | append_singleton places i ih =>
    rw [List.foldl_concat]
    generalize (places.foldl _ none : Option Nat) = found at ih ⊢
    cases known : parents.parent? i with
    | none =>
      simp only [Option.isNone_none, if_true]
      refine ⟨fun d same => ?_, fun same j mem => ?_⟩
      · obtain ⟨known', above, dominated⟩ := ih.1 d same
        refine ⟨known', fun j mem known' => ?_, fun e all => dominated e fun j mem => ?_⟩
        · rcases List.mem_append.1 mem with mem | mem
          · exact above j mem known'
          · simp [List.mem_singleton.1 mem, known] at known'
        · exact all j (List.mem_append_left _ mem)
      · rcases List.mem_append.1 mem with mem | mem
        · exact ih.2 same j mem
        · rw [List.mem_singleton.1 mem, known]
    | some d =>
      have isSome : (parents.parent? i).isSome := by simp [known]
      simp only [Option.isNone_some, Bool.false_eq_true, if_false, Option.some.injEq, reduceCtorEq,
        false_implies, and_true, forall_eq']
      cases found with
      | none =>
        refine ⟨isSome, fun j mem known' => ?_, fun e all => all i (by simp) isSome⟩
        rcases List.mem_append.1 mem with mem | mem
        · simp [ih.2 rfl j mem] at known'
        · obtain rfl := List.mem_singleton.1 mem
          exact ⟨.refl j, Nat.le_refl j⟩
      | some m =>
        obtain ⟨known', above, dominated⟩ := ih.1 m rfl
        obtain ⟨left, right, le, le', found, both⟩ :=
          rises.meetWithin_spec spanned (i + m) (Nat.le_refl _) isSome known'
        refine ⟨found, fun j mem known' => ?_, fun e all => ?_⟩
        · rcases List.mem_append.1 mem with mem | mem
          · obtain ⟨way, low⟩ := above j mem known'
            exact ⟨right.trans way, Nat.le_trans le' low⟩
          · obtain rfl := List.mem_singleton.1 mem
            exact ⟨left, le⟩
        · exact both e (all i (by simp) isSome) (dominated e fun j mem => all j (List.mem_append_left _ mem))

def Covers (into : List (List Nat)) (parents : Parents) (k i : Nat) : Prop :=
  ∀ d nodes, parents.parent? i = some d → (graph into).Path 0 i nodes → stepsBack nodes < k → d ∈ nodes

theorem Covers.mono {k' : Nat} (covers : Covers into parents k i) (le : k' ≤ k) : Covers into parents k' i :=
  fun d nodes parent path few => covers d nodes parent path (Nat.lt_of_lt_of_le few le)

theorem Above.mem_path {nodes : List Nat} (above : Above parents d i)
    (lower : ∀ i d, 0 < i → parents.parent? i = some d → d < i) (covers : ∀ j ≤ i, Covers into parents k j)
    (path : (graph into).Path 0 i nodes) (few : stepsBack nodes < k) : d ∈ nodes := by
  induction above generalizing nodes with
  | refl => exact path.right_mem
  | @up i e _ later parent _ ih =>
    have visited := covers i (Nat.le_refl i) e nodes parent path few
    obtain ⟨before, after, first, second, rfl, -⟩ := path.split_first visited
    cases second with
    | single =>
      exact ih (fun j le => covers j le) first few
    | @step _ _ _ after =>
      have fewer := stepsBack_append_le (before ++ [e]) after
      rw [List.append_assoc, List.singleton_append] at fewer
      have mem := ih (fun j le => covers j (Nat.le_trans le (Nat.le_of_lt (lower i e later parent))))
        first (Nat.lt_of_le_of_lt fewer few)
      rcases List.mem_append.1 mem with mem | mem
      · exact List.mem_append_left _ mem
      · exact List.mem_append_right _ (List.mem_singleton.1 mem ▸ (.head _))

structure Stage (into : List (List Nat)) (k next : Nat) (parents : Parents) : Prop where
  rises : Rises into parents
  done : ∀ i < next, i < into.length → (parents.parent? i).isSome ∧ Covers into parents (k + 1) i
  ahead : ∀ i < into.length, Covers into parents k i ∧ (0 < k → (parents.parent? i).isSome)

theorem parent?_set (inside : i < parents.length) :
    Parents.parent? (parents.set i (some d)) j = if i = j then some d else parents.parent? j := by
  unfold parent?
  rw [List.getElem?_set, if_pos inside]
  split
  · rfl
  · rfl

theorem Stage.revise (stage : Stage into k i parents) (spanned : Spanned into) (later : 0 < i)
    (inside : i < into.length) : Stage into k (i + 1) (parents.revise i (into.getD i [])) := by
  obtain ⟨rises, done, ahead⟩ := stage
  obtain ⟨c, edge, earlier⟩ := spanned i later inside
  have known := (done c earlier (Nat.lt_trans earlier inside)).1
  unfold Parents.revise
  obtain ⟨meets, nothing⟩ := rises.meetAll?_spec spanned (into.getD i [])
  cases found : parents.meetAll? (into.getD i []) with
  | none => simp [nothing found c edge] at known
  | some d =>
    obtain ⟨knownD, above, dominated⟩ := meets d found
    have low : d < i := Nat.lt_of_le_of_lt (above c edge known).2 earlier
    have set (j : Nat) : Parents.parent? (parents.set i (some d)) j =
        if i = j then some d else parents.parent? j :=
      parent?_set (rises.length ▸ inside)
    have isSome (j : Nat) (known : (parents.parent? j).isSome) :
        (Parents.parent? (parents.set i (some d)) j).isSome := by
      rw [set]
      split
      · rfl
      · exact known
    have covered : Covers into (parents.set i (some d)) (k + 1) i := by
      intro e nodes parent path few
      obtain rfl : d = e := by simpa [set] using parent
      rcases path.eq_single_or_last with ⟨rfl, -⟩ | ⟨p, before, toP, edge, rfl⟩
      · exact absurd later (Nat.lt_irrefl 0)
      · have insideP : p < into.length :=
          lt_length_of_path toP (List.ne_nil_of_length_pos (Nat.lt_of_le_of_lt (Nat.zero_le i) inside)) p toP.right_mem
        rw [stepsBack_snoc toP] at few
        apply List.mem_append_left
        have lower (i d : Nat) (later : 0 < i) (parent : parents.parent? i = some d) : d < i :=
          (rises.earlier i d later parent).1
        by_cases back : i ≤ p
        · rw [if_pos back] at few
          have knownP := (ahead p insideP).2 (by omega)
          refine (above p (mem_graph_succs.1 edge).2 knownP).1.mem_path (k := k) lower ?_ toP (by omega)
          exact fun j le => (ahead j (by omega)).1
        · rw [if_neg back] at few
          have knownP := (done p (by omega) insideP).1
          refine (above p (mem_graph_succs.1 edge).2 knownP).1.mem_path (k := k + 1) lower ?_ toP (by omega)
          exact fun j le => (done j (by omega) (by omega)).2
    have others (k j : Nat) (ne : i ≠ j) (covers : Covers into parents k j) :
        Covers into (parents.set i (some d)) k j := by
      intro e nodes parent
      rw [set, if_neg ne] at parent
      exact covers e nodes parent
    refine ⟨⟨by simp [rises.length], ?_, ?_, ?_⟩, ?_, ?_⟩
    · rw [set, if_neg (by omega), rises.first]
    · intro j e later' parent
      rw [set] at parent
      split at parent
      · rename_i same
        obtain rfl : d = e := by simpa using parent
        exact ⟨same ▸ low, isSome d knownD⟩
      · obtain ⟨lower, some⟩ := rises.earlier j e later' parent
        exact ⟨lower, isSome e some⟩
    · intro j e e' later' parent dominates ne
      rw [set] at parent
      split at parent
      · rename_i same
        subst same
        obtain rfl : d = e := by simpa using parent
        refine dominated e' fun p mem _ => ?_
        exact dominates.of_edge ne (mem_graph_succs.2 ⟨inside, mem⟩)
      · exact rises.dominated j e e' later' parent dominates ne
    · intro j le insideJ
      by_cases same : i = j
      · subst same
        exact ⟨by simp [set], covered⟩
      · obtain ⟨some, covers⟩ := done j (by omega) insideJ
        exact ⟨isSome j some, others _ j same covers⟩
    · intro j insideJ
      obtain ⟨covers, some⟩ := ahead j insideJ
      by_cases same : i = j
      · subst same
        exact ⟨covered.mono (Nat.le_succ k), fun positive => isSome i (some positive)⟩
      · exact ⟨others _ j same covers, fun positive => isSome j (some positive)⟩

theorem Stage.round (stage : Stage into k 1 parents) (spanned : Spanned into) :
    Stage into (k + 1) 1 (parents.round into) := by
  have rest (before : List (List Nat)) (positive : 0 < before.length) (after : List (List Nat))
      (split : into = before ++ after) (parents : Parents) (stage : Stage into k before.length parents) :
      Stage into k into.length
        ((after.zipIdx before.length).foldl (fun parents entry => parents.revise entry.2 entry.1) parents) := by
    induction after generalizing before parents with
    | nil => simpa [split] using stage
    | cons places _ ih =>
      have inside : before.length < into.length := by simp [split]
      have here : into.getD before.length [] = places := by simp [split]
      have next := stage.revise spanned positive inside
      rw [here] at next
      rw [List.zipIdx_cons, List.foldl_cons]
      have later := ih (before ++ [places]) (by simp) (by simp [split]) _ (by simpa using next)
      simpa using later
  have whole : Stage into k into.length (parents.round into) := by
    unfold Parents.round
    cases into with
    | nil => exact ⟨stage.rises, by simp, by simp⟩
    | cons places after =>
      exact rest [places] Nat.one_pos after rfl parents stage
  obtain ⟨rises, done, -⟩ := whole
  refine ⟨rises, fun i first inside => ?_, fun i inside => ?_⟩
  · obtain rfl : i = 0 := by omega
    refine ⟨(done 0 inside inside).1, fun d nodes parent path _ => ?_⟩
    obtain rfl : 0 = d := by simpa [rises.first] using parent
    exact path.left_mem
  · exact ⟨(done i inside inside).2, fun _ => (done i inside inside).1⟩

theorem start_stage (some : into ≠ []) : Stage into 0 1 (start into.length) := by
  have positive := List.length_pos_of_ne_nil some
  have parent (i : Nat) : Parents.parent? (start into.length) i = if i = 0 then .some 0 else none := by
    cases i with
    | zero => rfl
    | succ i =>
      simp only [Parents.parent?, start, List.getElem?_cons_succ, List.getElem?_replicate, Nat.succ_ne_zero, if_false]
      split <;> rfl
  refine ⟨⟨?_, ?_, ?_, ?_⟩, ?_, ?_⟩
  · simp [start]
    omega
  · simp [parent]
  · intro i d later known
    simp [parent, Nat.ne_of_gt later] at known
  · intro i d e later known
    simp [parent, Nat.ne_of_gt later] at known
  · intro i first inside
    obtain rfl : i = 0 := by omega
    refine ⟨by simp [parent], fun d nodes known path _ => ?_⟩
    obtain rfl : 0 = d := by simpa [parent] using known
    exact path.left_mem
  · exact fun i inside => ⟨fun d nodes _ _ few => absurd few (Nat.not_lt_zero _),
      fun none => absurd none (Nat.lt_irrefl 0)⟩

theorem iterate_stage (some : into ≠ []) (spanned : Spanned into) (rounds : Nat) :
    Stage into rounds 1 ((Parents.round into)^[rounds] (start into.length)) := by
  induction rounds with
  | zero => exact start_stage some
  | succ _ ih =>
    rw [Function.iterate_succ_apply']
    exact ih.round spanned

theorem settle_eq_iterate (fuel : Nat) (parents : Parents) :
    settle into fuel parents = (Parents.round into)^[fuel] parents := by
  induction fuel generalizing parents with
  | zero => rfl
  | succ fuel ih =>
    rw [settle]
    split
    · rename_i same
      exact (Function.iterate_fixed same _).symm
    · rw [ih, Function.iterate_succ_apply]

theorem Stage.parent?_iff (stage : Stage into k 1 parents) (spanned : Spanned into) (enough : into.length ≤ k)
    (later : 0 < i) (inside : i < into.length) :
    parents.parent? i = some d ↔ (graph into).ImmediatelyDominates 0 d i := by
  obtain ⟨rises, -, ahead⟩ := stage
  have found (d : Nat) (parent : parents.parent? i = some d) : (graph into).ImmediatelyDominates 0 d i := by
    have lower := (rises.earlier i d later parent).1
    refine ⟨?_, by omega, fun nodes path => ?_, fun e ne dominates => rises.dominated i d e later parent dominates ne⟩
    · obtain ⟨nodes, path, -⟩ := spanned.exists_path inside
      exact ⟨nodes, path⟩
    · -- Without its cycles a path has fewer steps back than there are places.
      obtain ⟨short, path', nodup, subset⟩ := path.exists_nodup
      have places := lt_length_of_path path' (List.ne_nil_of_length_pos (by omega))
      have length : short.length ≤ into.length := by
        have sub : short ⊆ List.range into.length := fun j mem => List.mem_range.2 (places j mem)
        simpa using (nodup.subperm sub).length_le
      have few := stepsBack_lt_length short (List.ne_nil_of_mem path'.left_mem)
      exact subset ((ahead i inside).1 d short parent path' (by omega))
  constructor
  · exact found d
  · intro idom
    obtain ⟨e, parent⟩ := Option.isSome_iff_exists.1 ((ahead i inside).2 (by omega))
    rw [parent, (found e parent).unique idom]

theorem parent?_ofEdges_iff (spanned : Spanned into) (later : 0 < i) (inside : i < into.length) :
    Parents.parent? (ofEdges into) i = some d ↔ (graph into).ImmediatelyDominates 0 d i := by
  have some : into ≠ [] := List.ne_nil_of_length_pos (by omega)
  rw [ofEdges, settle_eq_iterate]
  exact (iterate_stage some spanned _).parent?_iff spanned (Nat.le_refl _) later inside

theorem round_ofEdges (some : into ≠ []) (spanned : Spanned into) :
    Parents.round into (ofEdges into) = ofEdges into := by
  have stage := iterate_stage some spanned into.length
  rw [ofEdges, settle_eq_iterate]
  have next := stage.round spanned
  have same (i : Nat) :
      Parents.parent? (Parents.round into ((Parents.round into)^[into.length] (start into.length))) i =
      Parents.parent? ((Parents.round into)^[into.length] (start into.length)) i := by
    by_cases inside : i < into.length
    · cases i with
      | zero => rw [next.rises.first, stage.rises.first]
      | succ i =>
        apply Option.ext
        intro d
        rw [next.parent?_iff spanned (Nat.le_succ _) (Nat.succ_pos i) inside,
          stage.parent?_iff spanned (Nat.le_refl _) (Nat.succ_pos i) inside]
    · unfold Parents.parent?
      rw [List.getElem?_eq_none (by rw [next.rises.length]; omega),
        List.getElem?_eq_none (by rw [stage.rises.length]; omega)]
  apply List.ext_getElem
  · rw [next.rises.length, stage.rises.length]
  · intro i left right
    have equal := same i
    unfold Parents.parent? at equal
    rwa [List.getElem?_eq_getElem left, List.getElem?_eq_getElem right] at equal

end Reflow.Parents
