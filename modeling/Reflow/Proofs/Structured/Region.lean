import Reflow.Proofs.Analysis

namespace Reflow

def Tiles : Nat → List (Nat × Nat) → Nat → Prop
  | start, [], stop => start = stop
  | start, arm :: arms, stop => arm.1 = start ∧ start < arm.2 ∧ Tiles arm.2 arms stop

namespace Tiles

variable {start stop b : Nat} {arms : List (Nat × Nat)} {arm other : Nat × Nat}

section

variable (tiles : Tiles start arms stop)
include tiles

theorem le : start ≤ stop := by
  induction arms generalizing start with
  | nil => exact tiles.le
  | cons _ _ ih =>
    obtain ⟨-, before, rest⟩ := tiles
    exact before.le.trans (ih rest)

theorem within (mem : arm ∈ arms) : start ≤ arm.1 ∧ arm.1 < arm.2 ∧ arm.2 ≤ stop := by
  induction arms generalizing start with
  | nil => simp at mem
  | cons _ _ ih =>
    obtain ⟨same, before, rest⟩ := tiles
    rcases List.mem_cons.1 mem with rfl | later
    · exact ⟨same.ge, same ▸ before, rest.le⟩
    · obtain ⟨after, filled, inside⟩ := ih rest later
      exact ⟨before.le.trans after, filled, inside⟩

theorem exists_mem (after : start ≤ b) (before : b < stop) : ∃ arm ∈ arms, arm.1 ≤ b ∧ b < arm.2 := by
  induction arms generalizing start with
  | nil =>
    have same : start = stop := tiles
    omega
  | cons first arms ih =>
    obtain ⟨same, -, rest⟩ := tiles
    by_cases inside : b < first.2
    · exact ⟨first, .head _, same ▸ after, inside⟩
    · obtain ⟨arm, mem, found⟩ := ih rest (not_lt.1 inside)
      exact ⟨arm, .tail _ mem, found⟩

theorem eq_of_mem (mem : arm ∈ arms) (mem' : other ∈ arms) (inside : arm.1 ≤ b ∧ b < arm.2)
    (inside' : other.1 ≤ b ∧ b < other.2) : arm = other := by
  induction arms generalizing start with
  | nil => simp at mem
  | cons _ _ ih =>
    obtain ⟨-, -, rest⟩ := tiles
    rcases List.mem_cons.1 mem with rfl | later <;> rcases List.mem_cons.1 mem' with rfl | later'
    · rfl
    · have := (rest.within later').1
      omega
    · have := (rest.within later).1
      omega
    · exact ih rest later later'

end

end Tiles

namespace Procedure

variable {p : Procedure} {start stop join exit b c x : Nat} {exits : List Nat}
  {arms : List (Nat × Nat)} {arm : Nat × Nat} {direct : Prop}

/-- A region from its first block up to the one behind its last, with the blocks that the last one leads to. -/
inductive Region (p : Procedure) : Nat → Nat → List Nat → Prop
  | leave {start : Nat} {exits : List Nat} (succs : ∀ x : Nat, x ∈ p.succs start ↔ x ∈ exits) :
      Region p start (start + 1) exits
  | fork {start join stop : Nat} {exits : List Nat} {arms : List (Nat × Nat)}
      {direct : Prop} (succs : ∀ x : Nat, x ∈ p.succs start ↔ x ∈ arms.map (·.1) ∨ direct ∧ x = join)
      (tiles : Tiles (start + 1) arms join) (divided : direct ∨ ∃ arm ∈ arms, ∃ other ∈ arms, arm ≠ other)
      (inner : ∀ arm ∈ arms, Region p arm.1 arm.2 [join]) (rest : Region p join stop exits) :
      Region p start stop exits
  | cycle {start exit stop : Nat} {exits : List Nat} (enter : ∀ x : Nat, x ∈ p.succs start ↔ x = start + 1)
      (test : ∀ x : Nat, x ∈ p.succs (start + 1) ↔ x = start + 2 ∨ x = exit)
      (body : Region p (start + 2) exit [start + 1]) (rest : Region p exit stop exits) :
      Region p start stop exits

namespace Region

section

variable (region : p.Region start stop exits)
include region

theorem lt : start < stop := by
  induction region with
  | leave => omega
  | fork _ tiles =>
    have := tiles.le
    omega
  | cycle => omega

theorem last (x : Nat) : x ∈ p.succs (stop - 1) ↔ x ∈ exits := by
  induction region with
  | leave succs => exact succs x
  | fork _ _ _ _ _ _ ih => exact ih
  | cycle _ _ _ _ _ ih => exact ih

theorem edge (after : start ≤ b) (before : b < stop) (edge : x ∈ p.succs b) :
    start < x ∧ x < stop ∨ x ∈ exits ∧ b + 1 = stop := by
  induction region generalizing b x with
  | @leave start _ succs =>
    obtain rfl : b = start := by omega
    exact .inr ⟨(succs x).1 edge, rfl⟩
  | @fork start join _ _ _ _ succs tiles _ _ rest innerIh ih =>
    have bounds := tiles.le
    have filled := rest.lt
    by_cases first : b = start
    · subst first
      left
      rcases (succs x).1 edge with mem | ⟨-, rfl⟩
      · obtain ⟨arm, listed, rfl⟩ := List.mem_map.1 mem
        have := tiles.within listed
        omega
      · omega
    by_cases inside : b < join
    · obtain ⟨arm, mem, within⟩ := tiles.exists_mem (by omega) inside
      have := tiles.within mem
      left
      rcases innerIh arm mem within.1 within.2 edge with stays | ⟨out, -⟩
      · omega
      · obtain rfl := List.mem_singleton.1 out
        omega
    · rcases ih (by omega) before edge with stays | out
      · left
        omega
      · exact .inr out
  | @cycle start exit _ _ enter test body rest bodyIh ih =>
    have bounds := body.lt
    have filled := rest.lt
    by_cases first : b = start
    · subst first
      have := (enter x).1 edge
      omega
    by_cases second : b = start + 1
    · subst second
      have := (test x).1 edge
      omega
    by_cases inside : b < exit
    · left
      rcases bodyIh (by omega) inside edge with stays | ⟨out, -⟩
      · omega
      · have := List.mem_singleton.1 out
        omega
    · rcases ih (by omega) before edge with stays | out
      · left
        omega
      · exact .inr out

end

theorem ne_nil (region : p.Region start stop [x]) (after : start ≤ b) (before : b < stop) : p.succs b ≠ [] := by
  generalize same : [x] = exits at region
  induction region generalizing b x with
  | @leave start _ succs =>
    obtain rfl : b = start := by omega
    exact List.ne_nil_of_mem ((succs x).2 (same ▸ (.head _)))
  | @fork start join _ _ _ _ succs tiles divided _ _ innerIh ih =>
    by_cases first : b = start
    · subst first
      rcases divided with straight | ⟨arm, mem, -⟩
      · exact List.ne_nil_of_mem ((succs join).2 (.inr ⟨straight, rfl⟩))
      · exact List.ne_nil_of_mem ((succs arm.1).2 (.inl (List.mem_map_of_mem mem)))
    by_cases inside : b < join
    · obtain ⟨arm, mem, within⟩ := tiles.exists_mem (by omega) inside
      exact innerIh arm mem within.1 within.2 rfl
    · exact ih (by omega) before same
  | @cycle start exit _ _ enter test _ _ bodyIh ih =>
    by_cases first : b = start
    · subst first
      exact List.ne_nil_of_mem ((enter _).2 rfl)
    by_cases second : b = start + 1
    · subst second
      exact List.ne_nil_of_mem ((test _).2 (.inl rfl))
    by_cases inside : b < exit
    · exact bodyIh (by omega) inside rfl
    · exact ih (by omega) before same

section

variable (region : p.Region start stop exits) (after : start ≤ b) (before : b < stop)
include region after before

theorem exists_path : ∃ nodes : List Nat, p.flow.Path start b nodes ∧ ∀ c ∈ nodes, start ≤ c ∧ c < stop := by
  induction region generalizing b with
  | @leave start =>
    obtain rfl : b = start := by omega
    exact ⟨[b], .single b, by simp⟩
  | @fork start join _ _ arms _ succs tiles divided inner rest innerIh ih =>
    have bounds := tiles.le
    have filled := rest.lt
    -- The way into an arm, and the way through an arm or straight to the join.
    have enter {arm : Nat × Nat} (mem : arm ∈ arms) {b : Nat} (after : arm.1 ≤ b)
        (before : b < arm.2) : ∃ nodes : List Nat, p.flow.Path start b nodes ∧ ∀ c ∈ nodes, start ≤ c ∧ c < join := by
      obtain ⟨nodes, path, inside⟩ := innerIh arm mem after before
      have within := tiles.within mem
      refine ⟨start :: nodes, .step ((succs _).2 (.inl (List.mem_map_of_mem mem))) path, ?_⟩
      intro c visited
      rcases List.mem_cons.1 visited with rfl | later
      · omega
      · have := inside c later
        omega
    have pass : ∃ nodes : List Nat, p.flow.Path start join nodes ∧ ∀ c ∈ nodes, start ≤ c ∧ c ≤ join := by
      rcases divided with straight | ⟨arm, mem, -⟩
      · refine ⟨[start, join], .step ((succs join).2 (.inr ⟨straight, rfl⟩)) (.single join), ?_⟩
        intro c visited
        simp only [List.mem_cons, List.not_mem_nil, or_false] at visited
        omega
      · have within := tiles.within mem
        obtain ⟨nodes, path, inside⟩ := enter mem (b := arm.2 - 1) (by omega) (by omega)
        refine ⟨_, path.snoc (((inner arm mem).last join).2 (.head _)), ?_⟩
        intro c visited
        rcases List.mem_append.1 visited with early | final
        · have := inside c early
          omega
        · have := List.mem_singleton.1 final
          omega
    by_cases first : b = start
    · subst first
      exact ⟨[b], .single b, by simp [before]⟩
    by_cases inArm : b < join
    · obtain ⟨arm, mem, within⟩ := tiles.exists_mem (by omega) inArm
      obtain ⟨nodes, path, inside⟩ := enter mem within.1 within.2
      refine ⟨nodes, path, fun c visited => ?_⟩
      have := inside c visited
      omega
    · obtain ⟨nodes, path, inside⟩ := pass
      obtain ⟨nodes', path', inside'⟩ := ih (by omega) before
      obtain ⟨whole, joined, members⟩ := path.trans path'
      refine ⟨whole, joined, fun c visited => ?_⟩
      rcases (members c).1 visited with early | late
      · have := inside c early
        omega
      · have := inside' c late
        omega
  | @cycle start exit stop _ enter test body rest bodyIh ih =>
    have bounds := body.lt
    have filled := rest.lt
    have first : start + 1 ∈ p.flow.succs start := (enter _).2 rfl
    have into : start + 2 ∈ p.flow.succs (start + 1) := (test _).2 (.inl rfl)
    have out : exit ∈ p.flow.succs (start + 1) := (test _).2 (.inr rfl)
    have through {x : Nat} (edge : x ∈ p.flow.succs (start + 1)) {nodes : List Nat}
        (path : p.flow.Path x b nodes) (inside : ∀ c ∈ nodes, x ≤ c ∧ c < stop) (after : start ≤ x) :
        ∃ nodes : List Nat, p.flow.Path start b nodes ∧ ∀ c ∈ nodes, start ≤ c ∧ c < stop := by
      refine ⟨_, .step first (.step edge path), fun c visited => ?_⟩
      rcases List.mem_cons.1 visited with rfl | visited
      · omega
      rcases List.mem_cons.1 visited with rfl | visited
      · omega
      · have := inside c visited
        omega
    by_cases atStart : b = start
    · subst atStart
      exact ⟨[b], .single b, by simp [before]⟩
    by_cases atTest : b = start + 1
    · subst atTest
      refine ⟨[start, start + 1], .step first (.single _), fun c visited => ?_⟩
      simp only [List.mem_cons, List.not_mem_nil, or_false] at visited
      omega
    by_cases inBody : b < exit
    · obtain ⟨nodes, path, inside⟩ := bodyIh (by omega) inBody
      exact through into path (fun c visited => by have := inside c visited; omega) (by omega)
    · obtain ⟨nodes, path, inside⟩ := ih (by omega) before
      exact through out path inside (by omega)

theorem reaches : p.flow.Reaches start b := by
  obtain ⟨nodes, path, -⟩ := region.exists_path after before
  exact ⟨nodes, path⟩

theorem reaches_last : p.flow.Reaches b (stop - 1) := by
  have whole := region
  induction region generalizing b with
  | @leave start =>
    obtain rfl : b = start := by omega
    exact .refl b
  | @fork start join _ _ _ _ succs tiles _ inner rest innerIh ih =>
    have filled := rest.lt
    by_cases first : b = start
    · subst first
      exact whole.reaches (by omega) (by omega)
    by_cases inArm : b < join
    · obtain ⟨arm, mem, within⟩ := tiles.exists_mem (by omega) inArm
      have out : join ∈ p.flow.succs (arm.2 - 1) := ((inner arm mem).last join).2 (.head _)
      exact (innerIh arm mem within.1 within.2 (inner arm mem)).trans
        ((Digraph.Reaches.of_edge out).trans (ih le_rfl filled rest))
    · exact ih (by omega) before rest
  | @cycle start exit stop _ enter test body rest bodyIh ih =>
    have filled := rest.lt
    have onward : p.flow.Reaches (start + 1) (stop - 1) :=
      (Digraph.Reaches.of_edge ((test exit).2 (.inr rfl))).trans (ih le_rfl filled rest)
    by_cases first : b = start
    · subst first
      exact (Digraph.Reaches.of_edge ((enter _).2 rfl)).trans onward
    by_cases second : b = start + 1
    · subst second
      exact onward
    by_cases inBody : b < exit
    · have back : start + 1 ∈ p.flow.succs (exit - 1) := (body.last _).2 (.head _)
      exact (bodyIh (by omega) inBody body).trans ((Digraph.Reaches.of_edge back).trans onward)
    · exact ih (by omega) before rest

end

end Region

end Procedure

end Reflow
