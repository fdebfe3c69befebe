import Reflow.Proofs.Structured.Region

namespace Reflow.Procedure

variable {p : Procedure} {start stop join exit b c x : Nat} {exits : List Nat}
  {arms : List (Nat × Nat)} {arm : Nat × Nat} {direct : Prop}

structure Fork (p : Procedure) (start join : Nat) (arms : List (Nat × Nat)) (direct : Prop) : Prop where
  succs : ∀ x : Nat, x ∈ p.succs start ↔ x ∈ arms.map (·.1) ∨ direct ∧ x = join
  tiles : Tiles (start + 1) arms join
  divided : direct ∨ ∃ arm ∈ arms, ∃ other ∈ arms, arm ≠ other
  inner : ∀ arm ∈ arms, p.Region arm.1 arm.2 [join]

structure Cycle (p : Procedure) (start exit : Nat) : Prop where
  enter : ∀ x : Nat, x ∈ p.succs start ↔ x = start + 1
  test : ∀ x : Nat, x ∈ p.succs (start + 1) ↔ x = start + 2 ∨ x = exit
  body : p.Region (start + 2) exit [start + 1]

theorem Fork.region (fork : p.Fork start join arms direct) (rest : p.Region join stop exits) :
    p.Region start stop exits :=
  .fork fork.succs fork.tiles fork.divided fork.inner rest

theorem Cycle.region (cycle : p.Cycle start exit) (rest : p.Region exit stop exits) : p.Region start stop exits :=
  .cycle cycle.enter cycle.test cycle.body rest

structure Placed (p : Procedure) (start stop : Nat) (exits : List Nat) : Prop where
  region : p.Region start stop exits
  entered : ∀ b x : Nat, x ∈ p.succs b → start < x → x < stop → start ≤ b ∧ b < stop
  outside : ∀ x ∈ exits, x < start ∨ stop ≤ x
  reachable : p.Reachable start
  left : ∀ x ∈ exits, p.CanExit x
  entry : ∀ b : Nat, b = p.entry → b ≤ start

namespace Placed

theorem reaches (placed : p.Placed start stop exits) (after : start ≤ b) (before : b < stop) : p.Reachable b :=
  placed.reachable.trans (placed.region.reaches after before)

theorem canExit (placed : p.Placed start stop exits) (after : start ≤ b) (before : b < stop) : p.CanExit b := by
  have reach := placed.reaches after before
  have final : p.CanExit (stop - 1) := by
    have lastReachable : p.Reachable (stop - 1) := placed.reaches (by omega) (by omega)
    cases found : exits with
    | nil =>
      have none : p.succs (stop - 1) = [] := by
        rw [List.eq_nil_iff_forall_not_mem]
        intro x edge
        have := (placed.region.last x).1 edge
        simp [found] at this
      exact .of_edge (mem_backflow_none.2 ⟨lastReachable, none⟩)
    | cons x =>
      have mem : x ∈ exits := by simp [found]
      exact (placed.left x mem).of_reaches lastReachable (.of_edge ((placed.region.last x).2 mem))
  exact final.of_reaches reach (placed.region.reaches_last after before)

theorem ipdom?_last (placed : p.Placed start stop [x]) : p.analysis.ipdom? (stop - 1) = some x := by
  have filled := placed.region.lt
  have apart : x ≠ stop - 1 := by
    have := placed.outside x (.head _)
    omega
  apply ipdom?_of_single (placed.canExit (by omega) (by omega)) apart
  intro y
  rw [placed.region.last, List.mem_singleton]

section Fork

variable (placed : p.Placed start stop exits) (fork : p.Fork start join arms direct) (rest : p.Region join stop exits)

include placed fork rest

theorem fork_edge (edge : x ∈ p.succs b) (after : start < x) (before : x < stop) :
    b = start ∧ (x ∈ arms.map (·.1) ∨ direct ∧ x = join) ∨
    (∃ arm ∈ arms, (arm.1 ≤ b ∧ b < arm.2) ∧ (arm.1 < x ∧ x < arm.2 ∨ x = join ∧ b + 1 = arm.2)) ∨
    join ≤ b ∧ join < x := by
  obtain ⟨low, high⟩ := placed.entered b x edge after before
  by_cases first : b = start
  · subst first
    exact .inl ⟨rfl, (fork.succs x).1 edge⟩
  by_cases inArm : b < join
  · obtain ⟨arm, mem, within⟩ := fork.tiles.exists_mem (by omega) inArm
    refine .inr (.inl ⟨arm, mem, within, ?_⟩)
    rcases (fork.inner arm mem).edge within.1 within.2 edge with stays | ⟨out, last⟩
    · exact .inl stays
    · exact .inr ⟨List.mem_singleton.1 out, last⟩
  · rcases rest.edge (by omega) high edge with stays | ⟨out, -⟩
    · exact .inr (.inr ⟨by omega, stays.1⟩)
    · have := placed.outside x out
      omega

theorem fork_arm (mem : arm ∈ arms) : p.Placed arm.1 arm.2 [join] := by
  have bounds := fork.tiles.within mem
  have filled := rest.lt
  refine ⟨fork.inner arm mem, ?_, ?_, ?_, ?_, ?_⟩
  · intro b x edge after before
    rcases placed.fork_edge fork rest edge (by omega) (by omega) with
      ⟨-, start | ⟨-, atJoin⟩⟩ | ⟨other, mem', inside, stays | ⟨atJoin, -⟩⟩ | ⟨-, late⟩
    · -- The block is the start of an arm, so of this one.
      obtain ⟨other, mem', rfl⟩ := List.mem_map.1 start
      have within := fork.tiles.within mem'
      obtain rfl := fork.tiles.eq_of_mem mem mem' (b := other.1) (by omega) (by omega)
      omega
    · omega
    · obtain rfl := fork.tiles.eq_of_mem mem mem' (b := x) (by omega) (by omega)
      exact inside
    · omega
    · omega
  · intro x out
    have := List.mem_singleton.1 out
    omega
  · exact placed.reachable.succ ((fork.succs _).2 (.inl (List.mem_map_of_mem mem)))
  · intro x out
    obtain rfl := List.mem_singleton.1 out
    exact placed.canExit (by omega) (by omega)
  · intro b entry
    have := placed.entry b entry
    omega

theorem fork_rest : p.Placed join stop exits := by
  have bounds := fork.tiles.le
  have filled := rest.lt
  refine ⟨rest, ?_, ?_, placed.reaches (by omega) filled, placed.left, ?_⟩
  · intro b x edge after before
    obtain ⟨-, high⟩ := placed.entered b x edge (by omega) before
    rcases placed.fork_edge fork rest edge (by omega) before with
      ⟨-, start | ⟨-, atJoin⟩⟩ | ⟨arm, mem, -, stays | ⟨atJoin, -⟩⟩ | ⟨late, -⟩
    · obtain ⟨arm, mem, rfl⟩ := List.mem_map.1 start
      have := fork.tiles.within mem
      omega
    · omega
    · have := fork.tiles.within mem
      omega
    · omega
    · exact ⟨late, high⟩
  · intro x out
    have := placed.outside x out
    omega
  · intro b entry
    have := placed.entry b entry
    omega

theorem fork_pred_arm (mem : arm ∈ arms) (edge : arm.1 ∈ p.succs b) : b = start := by
  have bounds := fork.tiles.within mem
  have filled := rest.lt
  rcases placed.fork_edge fork rest edge (by omega) (by omega) with
    ⟨same, -⟩ | ⟨other, mem', -, stays | ⟨atJoin, -⟩⟩ | ⟨-, late⟩
  · exact same
  · obtain rfl := fork.tiles.eq_of_mem mem mem' (b := arm.1) (by omega) (by omega)
    omega
  · omega
  · omega

theorem fork_ipdom? : p.analysis.ipdom? start = some join := by
  have bounds := fork.tiles.le
  have filled := rest.lt
  have through {arm : Nat × Nat} (mem : arm ∈ arms) : ∃ way : List Nat, p.flow.Path start join way ∧
      ∀ d ∈ way, d = start ∨ d = join ∨ arm.1 ≤ d ∧ d < arm.2 := by
    have within := fork.tiles.within mem
    obtain ⟨nodes, path, inside⟩ :=
      (fork.inner arm mem).exists_path (b := arm.2 - 1) (by omega) (by omega)
    have out : join ∈ p.flow.succs (arm.2 - 1) :=
      ((fork.inner arm mem).last join).2 (.head _)
    refine ⟨_, .step ((fork.succs _).2 (.inl (List.mem_map_of_mem mem))) (path.snoc out), ?_⟩
    intro d visited
    rcases List.mem_cons.1 visited with rfl | visited
    · exact .inl rfl
    rcases List.mem_append.1 visited with visited | last
    · exact .inr (.inr (inside d visited))
    · exact .inr (.inl (List.mem_singleton.1 last))
  have apart : join ≠ start := by omega
  apply ipdom?_eq_some_of_ways (placed.canExit le_rfl (by omega)) apart
  · have inside : start ≤ start ∧ start < join := by omega
    refine postDominates_of_left (fun b : Nat => start ≤ b ∧ b < join) ?_ inside
    intro (b : Nat) ⟨low, high⟩
    by_cases first : b = start
    · subst first
      refine ⟨?_, ?_⟩
      · rcases fork.divided with straight | ⟨arm, mem, -⟩
        · exact List.ne_nil_of_mem ((fork.succs join).2 (.inr ⟨straight, rfl⟩))
        · exact List.ne_nil_of_mem ((fork.succs arm.1).2 (.inl (List.mem_map_of_mem mem)))
      · intro x edge
        rcases (fork.succs x).1 edge with atArm | ⟨-, atJoin⟩
        · obtain ⟨arm, mem, rfl⟩ := List.mem_map.1 atArm
          have := fork.tiles.within mem
          exact .inl ⟨by omega, by omega⟩
        · exact .inr atJoin
    · obtain ⟨arm, mem, within⟩ := fork.tiles.exists_mem (by omega) high
      have bounds := fork.tiles.within mem
      refine ⟨(fork.inner arm mem).ne_nil within.1 within.2, ?_⟩
      intro (x : Nat) edge
      rcases (fork.inner arm mem).edge within.1 within.2 edge with stays | ⟨out, -⟩
      · exact .inl ⟨by omega, by omega⟩
      · exact .inr (List.mem_singleton.1 out)
  · intro d other other'
    rcases fork.divided with straight | ⟨arm, mem, arm', mem', differ⟩
    · exact ⟨[start, join], .step ((fork.succs join).2 (.inr ⟨straight, rfl⟩)) (.single join), by simp [other, other']⟩
    · -- A block on the ways through both arms would stand in both.
      obtain ⟨way, path, inside⟩ := through mem
      obtain ⟨way', path', inside'⟩ := through mem'
      by_cases visited : d ∈ way
      · refine ⟨way', path', fun visited' => differ ?_⟩
        have within := ((inside d visited).resolve_left other).resolve_left other'
        have within' := ((inside' d visited').resolve_left other).resolve_left other'
        exact fork.tiles.eq_of_mem mem mem' within within'
      · exact ⟨way, path, visited⟩

theorem fork_pred_join (edge : join ∈ p.succs b) : (start ≤ b ∧ b < join) ∧ p.analysis.ipdom? b = some join := by
  have bounds := fork.tiles.le
  have filled := rest.lt
  rcases placed.fork_edge fork rest edge (by omega) filled with
    ⟨rfl, -⟩ | ⟨arm, mem, inside, stays | ⟨-, last⟩⟩ | ⟨-, late⟩
  · exact ⟨⟨le_rfl, by omega⟩, placed.fork_ipdom? fork rest⟩
  · have := fork.tiles.within mem
    omega
  · have within := fork.tiles.within mem
    obtain rfl : b = arm.2 - 1 := by omega
    exact ⟨⟨by omega, by omega⟩, (placed.fork_arm fork rest mem).ipdom?_last⟩
  · omega

theorem fork_isFeedback (mem : arm ∈ arms) : p.analysis.isFeedback start arm.1 = false := by
  have bounds := fork.tiles.within mem
  rw [Bool.eq_false_iff]
  intro feedback
  have outer : p.entry ≠ arm.1 := by
    intro same
    have := placed.entry arm.1 same.symm
    omega
  have dominates : p.Dominates start arm.1 := by
    refine dominates_of_entered (· = arm.1) outer ?_ rfl
    rintro c b edge rfl
    exact .inr (placed.fork_pred_arm fork rest mem edge)
  have same : start = arm.1 := eq_of_isFeedback feedback dominates
  omega

end Fork

section Cycle

variable (placed : p.Placed start stop exits) (cycle : p.Cycle start exit) (rest : p.Region exit stop exits)

include placed cycle rest

theorem cycle_edge (edge : x ∈ p.succs b) (after : start < x) (before : x < stop) :
    b = start ∧ x = start + 1 ∨ b = start + 1 ∧ (x = start + 2 ∨ x = exit) ∨
    (start + 2 ≤ b ∧ b < exit) ∧ (start + 2 < x ∧ x < exit ∨ x = start + 1 ∧ b + 1 = exit) ∨
    exit ≤ b ∧ exit < x := by
  obtain ⟨low, high⟩ := placed.entered b x edge after before
  by_cases first : b = start
  · subst first
    exact .inl ⟨rfl, (cycle.enter x).1 edge⟩
  by_cases second : b = start + 1
  · subst second
    exact .inr (.inl ⟨rfl, (cycle.test x).1 edge⟩)
  by_cases inBody : b < exit
  · refine .inr (.inr (.inl ⟨⟨by omega, inBody⟩, ?_⟩))
    rcases cycle.body.edge (by omega) inBody edge with stays | ⟨out, last⟩
    · exact .inl stays
    · exact .inr ⟨List.mem_singleton.1 out, last⟩
  · rcases rest.edge (by omega) high edge with stays | ⟨out, -⟩
    · exact .inr (.inr (.inr ⟨by omega, stays.1⟩))
    · have := placed.outside x out
      omega

theorem cycle_ipdom?_enter : p.analysis.ipdom? start = some (start + 1) := by
  have bounds := cycle.body.lt
  have filled := rest.lt
  exact ipdom?_of_single (placed.canExit le_rfl (by omega)) (Nat.succ_ne_self start) cycle.enter

theorem cycle_ipdom?_test : p.analysis.ipdom? (start + 1) = some exit := by
  have bounds := cycle.body.lt
  have filled := rest.lt
  have apart : exit ≠ start + 1 := by omega
  apply ipdom?_eq_some_of_ways (placed.canExit (by omega) (by omega)) apart
  · have inside : start + 1 ≤ start + 1 ∧ start + 1 < exit := by omega
    refine postDominates_of_left (fun b : Nat => start + 1 ≤ b ∧ b < exit) ?_ inside
    intro (b : Nat) ⟨low, high⟩
    by_cases first : b = start + 1
    · subst first
      refine ⟨List.ne_nil_of_mem ((cycle.test exit).2 (.inr rfl)), ?_⟩
      intro (x : Nat) edge
      rcases (cycle.test x).1 edge with rfl | atExit
      · exact .inl ⟨by omega, bounds⟩
      · exact .inr atExit
    · refine ⟨cycle.body.ne_nil (by omega) high, ?_⟩
      intro (x : Nat) edge
      rcases cycle.body.edge (by omega) high edge with stays | ⟨out, -⟩
      · exact .inl ⟨by omega, by omega⟩
      · have back : x = start + 1 := List.mem_singleton.1 out
        exact .inl ⟨by omega, by omega⟩
  · intro d other other'
    exact ⟨[start + 1, exit], .step ((cycle.test exit).2 (.inr rfl)) (.single exit), by simp [other, other']⟩

theorem cycle_body : p.Placed (start + 2) exit [start + 1] := by
  have bounds := cycle.body.lt
  have filled := rest.lt
  refine ⟨cycle.body, ?_, ?_, placed.reaches (by omega) (by omega), ?_, ?_⟩
  · intro b x edge after before
    rcases placed.cycle_edge cycle rest edge (by omega) (by omega) with
      ⟨-, early⟩ | ⟨-, early | late⟩ | ⟨inside, -⟩ | ⟨-, late⟩
    · omega
    · omega
    · omega
    · exact inside
    · omega
  · intro x out
    have := List.mem_singleton.1 out
    omega
  · intro x out
    obtain rfl := List.mem_singleton.1 out
    exact placed.canExit (by omega) (by omega)
  · intro b entry
    have := placed.entry b entry
    omega

theorem cycle_rest : p.Placed exit stop exits := by
  have bounds := cycle.body.lt
  have filled := rest.lt
  refine ⟨rest, ?_, ?_, placed.reaches (by omega) filled, placed.left, ?_⟩
  · intro b x edge after before
    obtain ⟨-, high⟩ := placed.entered b x edge (by omega) before
    rcases placed.cycle_edge cycle rest edge (by omega) before with
      ⟨-, early⟩ | ⟨-, early | early⟩ | ⟨-, early | early⟩ | ⟨late, -⟩
    · omega
    · omega
    · omega
    · omega
    · omega
    · exact ⟨late, high⟩
  · intro x out
    have := placed.outside x out
    omega
  · intro b entry
    have := placed.entry b entry
    omega

theorem cycle_pred_test (edge : start + 1 ∈ p.succs b) : b = start ∨ b = exit - 1 := by
  have bounds := cycle.body.lt
  have filled := rest.lt
  have := placed.cycle_edge cycle rest edge (by omega) (by omega)
  omega

theorem cycle_pred_exit (edge : exit ∈ p.succs b) : b = start + 1 := by
  have bounds := cycle.body.lt
  have filled := rest.lt
  have := placed.cycle_edge cycle rest edge (by omega) filled
  omega

theorem cycle_isFeedback : p.analysis.isFeedback (exit - 1) (start + 1) := by
  have bounds := cycle.body.lt
  have filled := rest.lt
  have edge : start + 1 ∈ p.succs (exit - 1) := (cycle.body.last _).2 (.head _)
  apply isFeedback_of_dominates (placed.reaches (by omega) (by omega)) edge
  refine dominates_of_entered (fun b : Nat => start + 2 ≤ b ∧ b < exit) ?_ ?_ ⟨by omega, by omega⟩
  · rintro ⟨inner, -⟩
    have := placed.entry p.entry rfl
    exact absurd inner (by omega)
  · rintro b x edge ⟨after, before⟩
    have := placed.cycle_edge cycle rest (b := b) (x := x) edge (by omega) (by omega)
    rcases this with ⟨-, early⟩ | ⟨test, -⟩ | ⟨inside, -⟩ | ⟨-, late⟩
    · omega
    · exact .inr test
    · exact .inl inside
    · omega

end Cycle

end Placed

end Reflow.Procedure
