import Reflow.Proofs.Copies.Schedule

namespace Reflow

namespace Schedule

variable {p : Procedure} {facts : Facts} {b : BlockId} {pairs flight flight' : List Pair} {stack : Rename.Stack}
  {copies : Copies} {log log' : Log} {s s' : Schedule} {pair : Pair} {v : Var} {name : String}

section

variable (logs : Logs p b pairs stack copies log flight s) (logs' : Logs p b pairs stack copies log' flight' s')
include logs logs'

theorem Logs.lines_append {new : List Copy}
    (tails : s'.copies.tails = s.copies.tails ++ new.map fun copy => (b, copy)) :
    log'.lines = log.lines ++ new := by
  rw [logs'.tails, logs.tails, List.append_assoc, ← List.map_append] at tails
  exact (Prod.mk_right_injective b).list_map (List.append_cancel_left tails)

theorem Logs.lines_eq (tails : s'.copies.tails = s.copies.tails) : log'.lines = log.lines := by
  have same : s'.copies.tails = s.copies.tails ++ [].map fun copy => (b, copy) := by simpa using tails
  simpa using logs.lines_append logs' same

end

theorem isSome_lookup_of_mem {α β : Type} [BEq α] [LawfulBEq α] {entries : List (α × β)} {a : α} {b : β}
    (mem : (a, b) ∈ entries) : (entries.lookup a).isSome := by
  by_contra none
  have absent := List.lookup_eq_none_iff.1 (Option.not_isSome_iff_eq_none.1 none) _ mem
  simp at absent

inductive Finds (p : Procedure) (s : Schedule) (v : Var) : String → Prop
  | held {t : String} (held : (v, t) ∈ s.held) : Finds p s v t
  | moved {w : Var} (moved : (v, w) ∈ s.moved) : Finds p s v (p.varName w)
  | inForce {t : String} (unkept : ¬ s.Keeps v) (top : Rename.top? s.scope.stack v = some t) : Finds p s v t
  | own (unkept : ¬ s.Keeps v) (top : Rename.top? s.scope.stack v = none) : Finds p s v (p.varName v)

theorem finds_sourceName (p : Procedure) (s : Schedule) (v : Var) : Finds p s v (s.sourceName p v) := by
  rw [sourceName]
  split
  · rename_i temp found
    exact .held (mem_of_lookup found)
  · rename_i holder _ found
    exact .moved (mem_of_lookup found)
  · rename_i notHeld notMoved
    have unkept : ¬ s.Keeps v := by simp [Keeps, notHeld, notMoved]
    cases top : Rename.top? s.scope.stack v with
    | some => exact .inForce unkept top
    | none => exact .own unkept top

section

variable (assignment : Assignment p pairs stack copies) (logs : Logs p b pairs stack copies log flight s)
include assignment logs

theorem Logs.inForce_ne {t : String} (named : t ∈ Rename.names s.scope.stack v) (known : name ∈ p.identifiers) :
    name ≠ t := by
  rcases Rename.mem_names_pushAll.1 (logs.names ▸ named) with pushed | old
  · exact logs.known_ne (List.mem_append_right _ pushed) known
  · rintro rfl
    obtain ⟨n, -, fresh⟩ := assignment.earlier v _ old
    exact p.freshName_not_mem n (fresh ▸ known)

theorem Logs.not_held {t : String} {w : Var} (named : t ∈ Rename.names s.scope.stack v) : (w, t) ∉ s.held := by
  intro held
  rcases Rename.mem_names_pushAll.1 (logs.names ▸ named) with pushed | old
  · have nodup := logs.names_nodup
    rw [List.map_append] at nodup
    exact List.disjoint_of_nodup_append nodup (List.mem_map.2 ⟨_, held, rfl⟩) (List.mem_map.2 ⟨_, pushed, rfl⟩)
  · obtain ⟨n, lt, name⟩ := assignment.earlier v _ old
    obtain ⟨m, le, -, name'⟩ := logs.exists_fresh (List.mem_append_left _ held)
    have same : n = m := p.freshName_injective (name.symm.trans name')
    omega

end

theorem Logs.elided_iff (assignment : Assignment p pairs stack copies)
    (logs : Logs p b pairs stack copies log [pair] s) :
    s.sourceName p pair.src = p.varName pair.dest ↔
      pair.src = pair.dest ∧ ¬ s.Keeps pair.dest ∧ Rename.top? s.scope.stack pair.dest = none := by
  have inPairs : pair ∈ pairs := logs.mem_pairs (by simp)
  have known := (assignment.known pair inPairs).2
  constructor
  · intro same
    have finds := same ▸ finds_sourceName p s pair.src
    generalize target : p.varName pair.dest = name at finds
    cases finds with
    | held held => exact absurd target (logs.known_ne (List.mem_append_left _ held) known)
    | moved moved =>
      obtain ⟨q, done, -, rfl⟩ := logs.moved _ _ moved
      have inPairs' := logs.mem_pairs (List.mem_append_left _ done)
      have dest := (assignment.injective pair inPairs q inPairs').2 target
      obtain rfl := assignment.eq_of_dest inPairs inPairs' dest
      exact absurd done (logs.flight_not_done assignment)
    | inForce _ top => exact absurd target (logs.inForce_ne assignment (Rename.mem_names_of_top? top) known)
    | own unkept top =>
      have same := (assignment.injective pair inPairs pair inPairs).1 target.symm
      exact ⟨same, same ▸ unkept, same ▸ top⟩
  · rintro ⟨same, unkept, top⟩
    have finds := finds_sourceName p s pair.src
    rw [same] at finds ⊢
    generalize s.sourceName p pair.dest = name at finds ⊢
    cases finds with
    | held held => exact absurd (.inl (isSome_lookup_of_mem held)) unkept
    | moved moved => exact absurd (.inr (isSome_lookup_of_mem moved)) unkept
    | inForce _ top' => exact nomatch top.symm.trans top'
    | own => rfl

inductive Sourced (p : Procedure) (pairs : List Pair) (stack : Rename.Stack) (held : List (Var × String))
    (names : Var → List String) (before : List Copy) : Copy → Prop
  | breaks {v : Var} {t : String} (kept : (v, t) ∈ held) : Sourced p pairs stack held names before ⟨t, p.varName v⟩
  | ofHeld {v : Var} {t dest : String} (kept : (v, t) ∈ held) : Sourced p pairs stack held names before ⟨dest, t⟩
  | ofMoved {source dest : String} (assigned : source ∈ before.map (·.dest)) :
      Sourced p pairs stack held names before ⟨dest, source⟩
  | ofInForce {v : Var} {t dest : String} (named : t ∈ names v) : Sourced p pairs stack held names before ⟨dest, t⟩
  | ofOwn {pair : Pair} {dest : String} (mem : pair ∈ pairs) (top : Rename.top? stack pair.src = none) :
      Sourced p pairs stack held names before ⟨dest, p.varName pair.src⟩

theorem Sourced.mono {held held' : List (Var × String)} {names names' : Var → List String} {before : List Copy}
    {line : Copy}
    (sourced : Sourced p pairs stack held names before line) (more : held ⊆ held') (more' : ∀ v, names v ⊆ names' v) :
    Sourced p pairs stack held' names' before line := by
  cases sourced with
  | breaks kept => exact .breaks (more kept)
  | ofHeld kept => exact .ofHeld (more kept)
  | ofMoved assigned => exact .ofMoved assigned
  | ofInForce named => exact .ofInForce (more' _ named)
  | ofOwn mem top => exact .ofOwn mem top

structure Traces (p : Procedure) (pairs : List Pair) (stack : Rename.Stack) (log : Log) (flight : List Pair)
    (s : Schedule) : Prop where
  read : ∀ pair ∈ flight ++ s.ready, ∀ q ∈ log.done, q.src = pair.dest → s.Keeps pair.dest
  held : ∀ v t, (v, t) ∈ s.held → ∃ q ∈ pairs, q.src = v ∧ q.dest ≠ v
  moved : ∀ v w, (v, w) ∈ s.moved → p.varName w ∈ log.lines.map (·.dest)
  written : ∀ pair ∈ log.done, Rename.top? s.scope.stack pair.dest = none →
    (p.varName pair.dest ∈ log.lines.map (·.dest) ↔ pair.src ≠ pair.dest ∨ ∃ q ∈ pairs, q ≠ pair ∧ q.src = pair.dest)
  sourced : ∀ before line after, log.lines = before ++ line :: after →
    Sourced p pairs stack s.held (Rename.names s.scope.stack) before line

theorem forall_split_concat {α : Type} {property : List α → α → Prop} {as : List α} {a : α}
    (old : ∀ before x after, as = before ++ x :: after → property before x) (new : property as a) :
    ∀ before x after, as ++ [a] = before ++ x :: after → property before x := by
  intro before x after split
  rcases List.eq_nil_or_concat' after with rfl | ⟨after, last, rfl⟩
  · obtain ⟨rfl, rfl⟩ := List.append_singleton_inj.1 split
    exact new
  · rw [← List.cons_append, ← List.append_assoc] at split
    obtain ⟨rfl, -⟩ := List.append_singleton_inj.1 split
    exact old before x after rfl

theorem Logs.keeps_iff (logs : Logs p b pairs stack copies log [pair] s) (traces : Traces p pairs stack log [pair] s)
    (assignment : Assignment p pairs stack copies) : s.Keeps pair.dest ↔ ∃ q ∈ pairs, q ≠ pair ∧ q.src = pair.dest := by
  constructor
  · rintro (kept | kept)
    · obtain ⟨t, found⟩ := Option.isSome_iff_exists.1 kept
      obtain ⟨q, mem, reads, ne⟩ := traces.held _ _ (mem_of_lookup found)
      exact ⟨q, mem, fun same => ne (same ▸ rfl), reads⟩
    · obtain ⟨w, found⟩ := Option.isSome_iff_exists.1 kept
      obtain ⟨q, done, reads, -⟩ := logs.moved _ _ (mem_of_lookup found)
      refine ⟨q, logs.mem_pairs (List.mem_append_left _ done), ?_, reads⟩
      rintro rfl
      exact logs.flight_not_done assignment done
  · rintro ⟨q, mem, ne, reads⟩
    rcases List.mem_append.1 (logs.perm.mem_iff.2 mem) with done | left
    · exact traces.read pair (by simp) q done reads
    · exact logs.kept pair (by simp) q left ne reads

namespace Traces

variable {rest : List Pair}

theorem of_same (traces : Traces p pairs stack log flight s) (done : log'.done = log.done)
    (lines : log'.lines = log.lines) (held : s'.held = s.held) (moved : s'.moved = s.moved)
    (names : ∀ v, Rename.names s.scope.stack v ⊆ Rename.names s'.scope.stack v)
    (read : ∀ pair ∈ flight' ++ s'.ready, ∀ q ∈ log.done, q.src = pair.dest → s'.Keeps pair.dest) :
    Traces p pairs stack log' flight' s' where
  read := done ▸ read
  held := held ▸ traces.held
  moved := by
    rw [moved, lines]
    exact traces.moved
  written := by
    rw [done, lines]
    intro q mem top
    refine traces.written q mem ?_
    rw [Rename.top?, List.head?_eq_none_iff] at top ⊢
    exact List.subset_nil.1 (top ▸ names q.dest)
  sourced := by
    rw [lines]
    exact fun before line after split =>
      (traces.sourced before line after split).mono (held ▸ .refl _) names

theorem take_ready (traces : Traces p pairs stack log [] s) (first : s.ready = pair :: rest) :
    Traces p pairs stack log [pair] { s with ready := rest } :=
  traces.of_same rfl rfl rfl rfl (fun _ => .refl _) (by simpa [first, Keeps] using traces.read)

theorem take_blocked (assignment : Assignment p pairs stack copies)
    (logs : Logs p b pairs stack copies log [] s) (none : s.ready = []) (first : s.blocked = pair :: rest)
    (logs' : Logs p b pairs stack copies log' [pair] ({ s with blocked := rest }.breakCycle p b pair))
    (done : log'.done = log.done) (traces : Traces p pairs stack log [] s) :
    Traces p pairs stack log' [pair] ({ s with blocked := rest }.breakCycle p b pair) := by
  -- No copy done so far reads the destination of a blocked one.
  have read {t : Schedule} (ready : t.ready = []) (q : Pair) (mem : q ∈ [pair] ++ t.ready) (r : Pair)
      (mem' : r ∈ log'.done) (reads : r.src = q.dest) : t.Keeps q.dest := by
    obtain rfl : q = pair := by simpa [ready] using mem
    exact absurd reads ((logs.waiting q (by simp [first])).2 r (done ▸ mem'))
  by_cases reads : rest.any (·.src = pair.dest) = true
  · rw [breakCycle, if_pos reads] at logs' ⊢
    have lines : log'.lines = log.lines ++ [⟨p.freshName s.copies.temporaries.length, p.varName pair.dest⟩] :=
      logs.lines_append logs' rfl
    exact {
      read := read none
      held := by
        intro v t mem
        rcases List.mem_cons.1 mem with same | old
        · obtain ⟨rfl, -⟩ := Prod.mk.inj same
          obtain ⟨q, waits, reads⟩ := List.any_eq_true.1 reads
          have inPairs : q ∈ pairs := logs.mem_pairs (by simp [first, waits])
          refine ⟨q, inPairs, of_decide_eq_true reads, fun same => ?_⟩
          obtain rfl := assignment.eq_of_dest inPairs (logs.mem_pairs (by simp [first])) same
          -- A copy that waits behind the one taken is another one.
          have nodup := logs.perm.nodup_iff.2 (List.Nodup.of_map _ assignment.nodup)
          rw [none, first] at nodup
          exact (List.nodup_cons.1 (List.nodup_append.1 nodup).2.1).1 waits
        · exact traces.held v t old
      moved := by
        intro v w mem
        simp [lines, traces.moved v w mem]
      written := by
        rw [done, lines]
        intro q mem top
        have known := (assignment.known q (logs.mem_pairs (List.mem_append_left _ mem))).2
        have ne : p.varName q.dest ≠ p.freshName s.copies.temporaries.length :=
          fun same => p.freshName_not_mem _ (same ▸ known)
        simpa [ne] using traces.written q mem top
      sourced := by
        rw [lines]
        refine forall_split_concat (fun before line after split => ?_) (.breaks (.head _))
        exact (traces.sourced before line after split).mono (List.subset_cons_self _ _) fun _ => .refl _ }
  · rw [breakCycle, if_neg reads] at logs' ⊢
    exact traces.of_same done (logs.lines_eq logs' rfl) rfl rfl (fun _ => .refl _) (done ▸ read none)

theorem saveLost (logs : Logs p b pairs stack copies log [pair] s)
    (logs' : Logs p b pairs stack copies log' [pair] (s.saveLost p facts b pair)) (done : log'.done = log.done)
    (traces : Traces p pairs stack log [pair] s) : Traces p pairs stack log' [pair] (s.saveLost p facts b pair) := by
  have lines : log'.lines = log.lines := by
    have tails : (s.saveLost p facts b pair).copies.tails = s.copies.tails := by
      rw [Schedule.saveLost]
      split <;> rfl
    exact logs.lines_eq logs' tails
  rw [Schedule.saveLost]
  split
  · refine traces.of_same done lines rfl rfl (fun v name mem => ?_) traces.read
    exact Rename.mem_names_push mem
  · exact traces.of_same done lines rfl rfl (fun _ => .refl _) traces.read

section

variable (assignment : Assignment p pairs stack copies) (logs : Logs p b pairs stack copies log [pair] s)
  (traces : Traces p pairs stack log [pair] s)
include assignment logs traces

theorem written_concat {new : List Copy} (only : new.map (·.dest) ⊆ [p.varName pair.dest])
    (wrote : p.varName pair.dest ∈ new.map (·.dest) ↔ s.sourceName p pair.src ≠ p.varName pair.dest) :
    ∀ q ∈ log.done ++ [pair], Rename.top? s.scope.stack q.dest = none →
      (p.varName q.dest ∈ (log.lines ++ new).map (·.dest) ↔ q.src ≠ q.dest ∨ ∃ r ∈ pairs, r ≠ q ∧ r.src = q.dest) := by
  have inPairs : pair ∈ pairs := logs.mem_pairs (by simp)
  intro q mem top
  rw [List.map_append, List.mem_append]
  rcases List.mem_append.1 mem with old | last
  · have notNew : p.varName q.dest ∉ new.map (·.dest) := by
      intro written
      have inPairs' := logs.mem_pairs (List.mem_append_left _ old)
      have dest := (assignment.injective q inPairs' pair inPairs).2 (List.mem_singleton.1 (only written))
      exact logs.flight_not_done assignment (assignment.eq_of_dest inPairs' inPairs dest ▸ old)
    rw [or_iff_left notNew]
    exact traces.written q old top
  · obtain rfl : q = pair := List.mem_singleton.1 last
    rw [or_iff_right (logs.dest_not_assigned assignment (by simp)), wrote, Ne, logs.elided_iff assignment,
      logs.keeps_iff traces assignment]
    simp only [top, and_true, not_and_or, not_not]

theorem read_release : ∀ q ∈ ((s.assign p b pair).release pair.src).ready, ∀ r ∈ log.done ++ [pair], r.src = q.dest →
      (s.assign p b pair).Keeps q.dest := by
  obtain ⟨_, wrote⟩ := Logs.exists_wrote (p := p) (b := b) s pair
  intro q mem r mem' reads
  have mem : q ∈ s.ready ∨ q ∈ s.blocked ∧ q.dest = pair.src := by
    simpa [release, wrote.ready, wrote.blocked] using mem
  rcases mem with ready | ⟨blocked, now⟩
  · refine wrote.keeps ?_
    rcases List.mem_append.1 mem' with old | last
    · exact traces.read q (by simp [ready]) r old reads
    · obtain rfl : r = pair := List.mem_singleton.1 last
      have nodup : (log.done ++ (r :: (s.ready ++ s.blocked))).Nodup :=
        logs.perm.nodup_iff.2 (List.Nodup.of_map _ assignment.nodup)
      have ne : r ≠ q := by
        rintro rfl
        exact (List.nodup_cons.1 (List.nodup_append.1 nodup).2.1).1 (List.mem_append_left _ ready)
      exact logs.kept q (by simp [ready]) r (by simp) ne reads
  · exact logs.keeps_assign assignment blocked now

theorem assign_release (logs' : Logs p b pairs stack copies log' [] ((s.assign p b pair).release pair.src))
    (done : log'.done = log.done ++ [pair]) : Traces p pairs stack log' [] ((s.assign p b pair).release pair.src) := by
  have read := done ▸ traces.read_release assignment logs
  rcases Logs.assign_eq (p := p) (b := b) s pair with ⟨same, elided⟩ | ⟨kept, moved, same, rfl⟩
  · rw [same] at logs' read ⊢
    have lines : log'.lines = log.lines ++ [] := logs.lines_append logs' (by simp [release])
    exact {
      read := read
      held := traces.held
      moved := by
        rw [lines, List.append_nil]
        exact traces.moved
      written := by
        rw [done, lines]
        exact traces.written_concat assignment logs (by simp) (by simp [elided])
      sourced := by
        rw [lines, List.append_nil]
        exact traces.sourced }
  · rw [same] at logs' read ⊢
    have lines : log'.lines = log.lines ++ [⟨p.varName pair.dest, s.sourceName p pair.src⟩] :=
      logs.lines_append logs' rfl
    exact {
      read := read
      held := traces.held
      moved := by
        intro v w mem
        rw [lines, List.map_append, List.mem_append]
        have mem : (v, w) ∈ s.moved ∨ v = pair.src ∧ w = pair.dest := by
          dsimp only [release] at mem
          split at mem
          · simpa [or_comm] using mem
          · exact .inl mem
        rcases mem with old | ⟨-, rfl⟩
        · exact .inl (traces.moved v w old)
        · exact .inr (.head _)
      written := by
        rw [done, lines]
        exact traces.written_concat assignment logs (by simp) (by simp [kept])
      sourced := by
        rw [lines]
        refine forall_split_concat traces.sourced ?_
        have finds := finds_sourceName p s pair.src
        generalize s.sourceName p pair.src = source at finds ⊢
        cases finds with
        | held kept => exact .ofHeld kept
        | moved kept => exact .ofMoved (traces.moved _ _ kept)
        | inForce _ top => exact .ofInForce (Rename.mem_names_of_top? top)
        | own _ top =>
          rw [logs.names, Rename.top?_pushAll, Option.or_eq_none_iff] at top
          exact .ofOwn (logs.mem_pairs (by simp)) top.2 }

end

end Traces

theorem start_traces (pairs : List Pair) (stack : Rename.Stack) (copies : Copies) :
    Traces p pairs stack {} [] (start pairs stack copies) where
  read := by simp
  held := by simp [start]
  moved := by simp [start]
  written := by simp
  sourced := by simp

theorem run_traces (facts : Facts) (b : BlockId) (assignment : Assignment p pairs stack copies) :
    ∃ log, Logs p b pairs stack copies log [] ((start pairs stack copies).runWithin p facts b pairs.length) ∧
      Traces p pairs stack log [] ((start pairs stack copies).runWithin p facts b pairs.length) := by
  have perform {log : Log} {s : Schedule} {pair : Pair} (logs : Logs p b pairs stack copies log [pair] s)
      (traces : Traces p pairs stack log [pair] s) :
      ∃ log', Logs p b pairs stack copies log' [] (s.perform p facts b pair) ∧
        Traces p pairs stack log' [] (s.perform p facts b pair) := by
    obtain ⟨log₁, done₁, logs₁⟩ := logs.saveLost facts pair
    obtain ⟨log₂, done₂, logs₂⟩ := logs₁.assign_release assignment
    exact ⟨log₂, logs₂, (traces.saveLost logs logs₁ done₁).assign_release assignment logs₁ logs₂ done₂⟩
  refine runWithin_invariant
    (fun s => ∃ log, Logs p b pairs stack copies log [] s ∧ Traces p pairs stack log [] s) ?_ ?_ _ _
    ⟨{}, start_logs pairs stack copies, start_traces pairs stack copies⟩
  · rintro s pair rest ⟨log, logs, traces⟩ first
    exact perform (logs.take_ready first) (traces.take_ready first)
  · rintro s pair rest ⟨log, logs, traces⟩ none first
    obtain ⟨log', done, taken⟩ := logs.take_blocked assignment none first
    exact perform taken (traces.take_blocked assignment logs none first taken done)

end Schedule

end Reflow
