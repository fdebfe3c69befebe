import Mathlib.Data.List.Cycle
import Mathlib.Dynamics.PeriodicPts.Lemmas
import Reflow.Proofs.Copies.Schedule

namespace Reflow

/-- A cycle of at least two variables, each copied into the next one, none of which is read by a copy outside the
cycle. -/
structure IsolatedCycle (pairs : List Pair) (cycle : Cycle Var) : Prop where
  nodup : cycle.Nodup
  long : 2 ≤ cycle.length
  copied : cycle.Chain fun v w => ∃ pair ∈ pairs, pair.src = v ∧ pair.dest = w
  isolated : ∀ pair ∈ pairs, pair.src ∈ cycle → pair.dest ∈ cycle

namespace IsolatedCycle

variable {pairs : List Pair} {cycle : Cycle Var}

theorem exists_copy (isolated : IsolatedCycle pairs cycle) {v : Var} (mem : v ∈ cycle) :
    ∃ pair ∈ pairs, pair.src = v ∧ pair.dest ≠ v ∧ pair.dest ∈ cycle := by
  obtain ⟨rest, rfl⟩ : ∃ rest : List Var, cycle = ↑(v :: rest) := by
    induction cycle using Quotient.inductionOn' with
    | _ =>
      obtain ⟨before, after, rfl⟩ := List.append_of_mem mem
      exact ⟨after ++ before, Cycle.coe_eq_coe.2 List.isRotated_append⟩
  cases rest with
  | nil => exact absurd isolated.long (by simp)
  | cons w rest =>
    have chain := (Cycle.chain_coe_cons _ v (w :: rest)).1 isolated.copied
    obtain ⟨pair, listed, rfl, rfl⟩ := (List.isChain_cons_cons.1 chain).1
    have nodup := Cycle.nodup_coe_iff.1 isolated.nodup
    refine ⟨pair, listed, rfl, ?_, by simp⟩
    intro same
    simp [same] at nodup

theorem forall_mem (isolated : IsolatedCycle pairs cycle) (property : Var → Prop) {w : Var} (mem : w ∈ cycle)
    (holds : property w) (back : ∀ pair ∈ pairs, property pair.dest → property pair.src) : ∀ v ∈ cycle, property v := by
  let implies : Var → Var → Prop := fun v w => property w → property v
  have : IsTrans Var implies := ⟨fun _ _ _ first second holds => first (second holds)⟩
  have chain : cycle.Chain implies := isolated.copied.imp fun v w ⟨pair, listed, src, dest⟩ holds =>
    src ▸ back pair listed (dest ▸ holds)
  exact fun v mem' => Cycle.chain_iff_pairwise.1 chain v mem' w mem holds

end IsolatedCycle

namespace Schedule

variable {p : Procedure} {facts : Facts} {b : BlockId} {pairs : List Pair} {stack : Rename.Stack}
  {copies : Copies} {log : Log} {s : Schedule} {pair : Pair}

theorem breakCycle_held (s : Schedule) (pair : Pair) :
    (s.breakCycle p b pair).held = s.held ∧ (∀ q ∈ s.blocked, q.src ≠ pair.dest) ∨
      (∃ reader ∈ s.blocked, reader.src = pair.dest) ∧
        ∃ temp, (s.breakCycle p b pair).held = (pair.dest, temp) :: s.held := by
  rw [breakCycle]
  split
  · rename_i reads
    exact .inr ⟨by simpa using reads, _, rfl⟩
  · rename_i unread
    exact .inl ⟨rfl, by simpa using unread⟩

theorem Logs.not_done_of_pending (assignment : Assignment p pairs stack copies) {flight : List Pair}
    (logs : Logs p b pairs stack copies log flight s) (pending : pair ∈ flight ++ (s.ready ++ s.blocked)) :
    pair ∉ log.done := by
  intro done
  have nodup := logs.perm.nodup_iff.2 (List.Nodup.of_map _ assignment.nodup)
  exact List.disjoint_of_nodup_append nodup done pending

def Treats (pairs : List Pair) (log : Log) (s : Schedule) (cycle : Cycle Var) : Prop :=
  ((∀ pair ∈ pairs, pair.dest ∈ cycle → pair ∈ s.blocked) ∧ ∀ entry ∈ s.held, entry.1 ∉ cycle) ∨
    (∃ pair ∈ log.done, pair.dest ∈ cycle) ∧ ∃! entry, entry ∈ s.held ∧ entry.1 ∈ cycle

theorem start_treats {cycle : Cycle Var} (isolated : IsolatedCycle pairs cycle) (stack : Rename.Stack)
    (copies : Copies) : Treats pairs {} (start pairs stack copies) cycle := by
  refine .inl ⟨fun pair listed onCycle => ?_, by simp [start]⟩
  obtain ⟨reader, listed', reads, -⟩ := isolated.exists_copy onCycle
  simp only [start, List.partition_eq_filter_filter, List.mem_filter, Function.comp_apply, Bool.not_not,
    List.any_eq_true, decide_eq_true_eq]
  exact ⟨listed, reader, listed', reads⟩

theorem treats_perform_other {cycle : Cycle Var} (isolated : IsolatedCycle pairs cycle) (listed : pair ∈ pairs)
    (outside : pair.dest ∉ cycle) {log' : Log} {s' : Schedule} (blocked : ∀ q ∈ s.blocked, q ≠ pair → q ∈ s'.blocked)
    (held : ∀ entry, entry ∈ s'.held ∧ entry.1 ∈ cycle ↔ entry ∈ s.held ∧ entry.1 ∈ cycle)
    (done : log'.done = log.done ++ [pair]) (treats : Treats pairs log s cycle) :
    Treats pairs log' (s'.perform p facts b pair) cycle := by
  rw [Treats, perform_blocked, perform_held]
  rcases treats with ⟨waiting, unheld⟩ | ⟨⟨q, mem, onCycle⟩, once⟩
  · refine .inl ⟨fun q mem onCycle => ?_, fun entry mem onCycle => ?_⟩
    · have ne : q ≠ pair := fun same => outside (same ▸ onCycle)
      refine List.mem_filter.2 ⟨blocked q (waiting q mem onCycle) ne, ?_⟩
      have differs : q.dest ≠ pair.src := fun same =>
        outside (isolated.isolated pair listed (same ▸ onCycle))
      simpa using differs
    · exact unheld entry ((held entry).1 ⟨mem, onCycle⟩).1 onCycle
  · refine .inr ⟨⟨q, by simp [done, mem], onCycle⟩, ?_⟩
    simpa only [held] using once

section

variable (assignment : Assignment p pairs stack copies) (logs : Logs p b pairs stack copies log [] s)
include assignment logs

variable {rest : List Pair}

theorem Logs.dests_perm_srcs (none : s.ready = []) : (s.blocked.map (·.dest)).Perm (s.blocked.map (·.src)) := by
  have nodup : (s.blocked.map (·.dest)).Nodup := by
    have all := (logs.perm.map (·.dest)).nodup_iff.2 assignment.nodup
    refine all.sublist (List.Sublist.map _ ?_)
    simp [none]
  have subset : s.blocked.map (·.dest) ⊆ s.blocked.map (·.src) := by
    intro v mem
    obtain ⟨pair, listed, rfl⟩ := List.mem_map.1 mem
    obtain ⟨⟨reader, pending, reads⟩, -⟩ := logs.waiting pair listed
    have pending : reader ∈ s.blocked := by simpa [none] using pending
    exact List.mem_map.2 ⟨reader, pending, reads⟩
  exact (nodup.subperm subset).perm_of_length_le (by simp)

theorem Logs.exists_cycle (none : s.ready = []) (mem : pair ∈ s.blocked) {reader : Pair} (waits : reader ∈ s.blocked)
    (ne : reader ≠ pair) (reads : reader.src = pair.dest) : ∃ cycle, IsolatedCycle pairs cycle ∧ pair.dest ∈ cycle := by
  have perm := logs.dests_perm_srcs assignment none
  have inPairs {q : Pair} (waits : q ∈ s.blocked) : q ∈ pairs := logs.mem_pairs (by simp [waits])
  have oneReader {q r : Pair} (first : q ∈ s.blocked) (second : r ∈ s.blocked) (same : q.src = r.src) : q = r := by
    have nodup : (s.blocked.map (·.src)).Nodup := by
      have all := (logs.perm.map (·.dest)).nodup_iff.2 assignment.nodup
      exact perm.nodup_iff.1 (all.sublist (List.Sublist.map _ (by simp [none])))
    exact List.inj_on_of_nodup_map nodup first second same
  -- The variables written by the waiting copies, each followed to where it is copied.
  have copied (v : { v // v ∈ s.blocked.map (·.dest) }) : ∃ q ∈ s.blocked, q.src = v.1 :=
    List.mem_map.1 (perm.mem_iff.1 v.2)
  choose copyOf waiting source using copied
  let next (v : { v // v ∈ s.blocked.map (·.dest) }) : { v // v ∈ s.blocked.map (·.dest) } :=
    ⟨(copyOf v).dest, List.mem_map.2 ⟨_, waiting v, rfl⟩⟩
  have injective : Function.Injective next := by
    intro v w same
    have dest : (copyOf v).dest = (copyOf w).dest := congrArg Subtype.val same
    have copy := assignment.eq_of_dest (inPairs (waiting v)) (inPairs (waiting w)) dest
    exact Subtype.ext ((source v).symm.trans ((congrArg Pair.src copy).trans (source w)))
  let start : { v // v ∈ s.blocked.map (·.dest) } := ⟨pair.dest, List.mem_map.2 ⟨pair, mem, rfl⟩⟩
  have : Finite { v // v ∈ s.blocked.map (·.dest) } := (List.finite_toSet _).to_subtype
  have periodic : start ∈ Function.periodicPts next := injective.mem_periodicPts start
  have listed : (Function.periodicOrbit next start).map Subtype.val =
      ↑(((List.range (Function.minimalPeriod next start)).map fun n => next^[n] start).map Subtype.val) := by
    rw [Function.periodicOrbit_def, Cycle.map_coe]
  refine ⟨(Function.periodicOrbit next start).map Subtype.val, ⟨?_, ?_, ?_, ?_⟩, ?_⟩
  · have nodup : (Function.periodicOrbit next start).Nodup := Function.nodup_periodicOrbit
    rw [Function.periodicOrbit_def, Cycle.nodup_coe_iff] at nodup
    rw [listed, Cycle.nodup_coe_iff]
    exact nodup.map Subtype.val_injective
  · rw [listed, Cycle.length_coe, List.length_map, List.length_map, List.length_range]
    have positive := Function.minimalPeriod_pos_of_mem_periodicPts periodic
    have notFixed : Function.minimalPeriod next start ≠ 1 := by
      rw [Ne, Function.minimalPeriod_eq_one_iff_isFixedPt]
      intro fixed
      have dest : (copyOf start).dest = pair.dest := congrArg Subtype.val fixed
      have copy := assignment.eq_of_dest (inPairs (waiting start)) (inPairs mem) dest
      exact ne (oneReader waits mem (reads.trans ((source start).symm.trans (congrArg Pair.src copy))))
    omega
  · rw [Cycle.chain_map, Function.periodicOrbit_chain' _ periodic]
    intro n
    rw [Function.iterate_succ_apply']
    exact ⟨copyOf (next^[n] start), inPairs (waiting _), source _, rfl⟩
  · intro q listed' onCycle
    obtain ⟨v, orbit, src⟩ := Cycle.mem_map.1 onCycle
    obtain ⟨n, rfl⟩ := (Function.mem_periodicOrbit_iff periodic).1 orbit
    have pending : q ∈ s.blocked := by
      obtain ⟨writer, waits, dest⟩ := List.mem_map.1 (next^[n] start).2
      have unread := (logs.waiting writer waits).2
      have known : q ∈ log.done ∨ q ∈ s.blocked := by
        simpa [none] using logs.perm.mem_iff.2 listed'
      exact known.resolve_left fun done => unread q done (src.symm.trans dest.symm)
    have copy := oneReader pending (waiting (next^[n] start)) (src.symm.trans (source _).symm)
    refine Cycle.mem_map.2 ⟨next^[n + 1] start, Function.iterate_mem_periodicOrbit periodic _, ?_⟩
    rw [Function.iterate_succ_apply', copy]
  · exact Cycle.mem_map.2 ⟨start, Function.self_mem_periodicOrbit periodic, rfl⟩

theorem treats_ready (first : s.ready = pair :: rest) {cycle : Cycle Var}
    (isolated : IsolatedCycle pairs cycle) {log' : Log} (done : log'.done = log.done ++ [pair])
    (treats : Treats pairs log s cycle) :
    Treats pairs log' ({ s with ready := rest }.perform p facts b pair) cycle := by
  have listed : pair ∈ pairs := logs.mem_pairs (by simp [first])
  by_cases onCycle : pair.dest ∈ cycle
  · rcases treats with ⟨waiting, -⟩ | ⟨⟨q, mem, onCycle⟩, once⟩
    · -- A copy that may be written does not wait.
      exfalso
      have nodup := logs.perm.nodup_iff.2 (List.Nodup.of_map _ assignment.nodup)
      have pending := (List.nodup_append.1 nodup).2.1
      simp [first, waiting pair listed onCycle] at pending
    · rw [Treats, perform_held]
      exact .inr ⟨⟨q, by simp [done, mem], onCycle⟩, once⟩
  · exact treats_perform_other isolated listed onCycle (fun _ mem _ => mem) (fun _ => Iff.rfl) done treats

theorem treats_blocked (none : s.ready = []) (first : s.blocked = pair :: rest) {cycle : Cycle Var}
    (isolated : IsolatedCycle pairs cycle) {log' : Log} (done : log'.done = log.done ++ [pair])
    (treats : Treats pairs log s cycle) :
    Treats pairs log' (({ s with blocked := rest }.breakCycle p b pair).perform p facts b pair) cycle := by
  have listed : pair ∈ pairs := logs.mem_pairs (by simp [first])
  by_cases onCycle : pair.dest ∈ cycle
  · -- All copies of the cycle still wait, so this is the first of them to be done.
    have waiting : ∀ v ∈ cycle, v ∈ s.blocked.map (·.dest) := by
      refine isolated.forall_mem (· ∈ s.blocked.map (·.dest)) onCycle (by simp [first]) ?_
      intro q listed' written
      obtain ⟨r, waits, same⟩ := List.mem_map.1 written
      obtain rfl := assignment.eq_of_dest (logs.mem_pairs (by simp [waits])) listed' same
      exact (logs.dests_perm_srcs assignment none).mem_iff.2 (List.mem_map.2 ⟨r, waits, rfl⟩)
    rcases treats with ⟨waits, unheld⟩ | ⟨⟨q, mem, onCycle'⟩, -⟩
    · rw [Treats, perform_held]
      refine .inr ⟨⟨pair, by simp [done], onCycle⟩, ?_⟩
      obtain ⟨reader, listed', reads, ne, onCycle'⟩ := isolated.exists_copy onCycle
      have later : reader ∈ rest := by
        have pending := waits reader listed' onCycle'
        rw [first, List.mem_cons] at pending
        exact pending.resolve_left fun same => ne (same ▸ rfl)
      rcases breakCycle_held (p := p) (b := b) { s with blocked := rest } pair with
        ⟨-, unread⟩ | ⟨-, temp, held⟩
      · exact absurd reads (unread reader later)
      · rw [held]
        refine ⟨(pair.dest, temp), ⟨by simp, onCycle⟩, ?_⟩
        rintro entry ⟨mem, onCycle⟩
        rcases List.mem_cons.1 mem with same | old
        · exact same
        · exact absurd onCycle (unheld entry old)
    · exfalso
      obtain ⟨r, waits, same⟩ := List.mem_map.1 (waiting q.dest onCycle')
      have pending : r ∈ [] ++ (s.ready ++ s.blocked) := by simp [waits]
      obtain rfl := assignment.eq_of_dest (logs.mem_pairs (List.mem_append_right _ pending))
        (logs.mem_pairs (List.mem_append_left _ mem)) same
      exact logs.not_done_of_pending assignment pending mem
  · refine treats_perform_other isolated listed onCycle ?_ ?_ done treats
    · intro q mem ne
      rw [breakCycle_blocked]
      simpa [first, ne] using mem
    · intro entry
      rcases breakCycle_held (p := p) (b := b) { s with blocked := rest } pair with
        ⟨held, -⟩ | ⟨-, temp, held⟩
      · rw [held]
      · rw [held, List.mem_cons]
        constructor
        · rintro ⟨rfl | old, onCycle'⟩
          · exact absurd onCycle' onCycle
          · exact ⟨old, onCycle'⟩
        · exact fun ⟨old, onCycle'⟩ => ⟨.inr old, onCycle'⟩

end

theorem run_cycles (assignment : Assignment p pairs stack copies) :
    (∀ cycle, IsolatedCycle pairs cycle → ∃! entry, entry ∈
      ((start pairs stack copies).runWithin p facts b pairs.length).held ∧ entry.1 ∈ cycle) ∧
    ∀ entry ∈ ((start pairs stack copies).runWithin p facts b pairs.length).held,
      ∃ cycle, IsolatedCycle pairs cycle ∧ entry.1 ∈ cycle := by
  have invariant : ∃ log, Logs p b pairs stack copies log []
      ((start pairs stack copies).runWithin p facts b pairs.length) ∧
      (∀ cycle, IsolatedCycle pairs cycle → Treats pairs log
        ((start pairs stack copies).runWithin p facts b pairs.length) cycle) ∧
      ∀ entry ∈ ((start pairs stack copies).runWithin p facts b pairs.length).held,
        ∃ cycle, IsolatedCycle pairs cycle ∧ entry.1 ∈ cycle := by
    refine runWithin_invariant (fun s => ∃ log, Logs p b pairs stack copies log [] s ∧
      (∀ cycle, IsolatedCycle pairs cycle → Treats pairs log s cycle) ∧
      ∀ entry ∈ s.held, ∃ cycle, IsolatedCycle pairs cycle ∧ entry.1 ∈ cycle) ?_ ?_ _ _
      ⟨{}, start_logs pairs stack copies, fun cycle isolated => start_treats isolated stack copies, by simp [start]⟩
    · rintro s pair rest ⟨log, logs, treats, onCycles⟩ first
      obtain ⟨log', done, next⟩ := (logs.take_ready first).perform assignment facts
      refine ⟨log', next, fun cycle isolated => ?_, by simpa only [perform_held] using onCycles⟩
      exact treats_ready assignment logs first isolated done (treats cycle isolated)
    · rintro s pair rest ⟨log, logs, treats, onCycles⟩ none first
      obtain ⟨log', done, taken⟩ := logs.take_blocked assignment none first
      obtain ⟨log'', done', next⟩ := taken.perform assignment facts
      rw [done] at done'
      refine ⟨log'', next, fun cycle isolated => ?_, ?_⟩
      · exact treats_blocked assignment logs none first isolated done' (treats cycle isolated)
      · rw [perform_held]
        rcases breakCycle_held (p := p) (b := b) { s with blocked := rest } pair with
          ⟨held, -⟩ | ⟨⟨reader, waits, reads⟩, temp, held⟩
        · rw [held]
          exact onCycles
        · rw [held]
          intro entry mem
          rcases List.mem_cons.1 mem with rfl | old
          · have nodup := logs.perm.nodup_iff.2 (List.Nodup.of_map _ assignment.nodup)
            have ne : reader ≠ pair := by
              rintro rfl
              have pending := (List.nodup_append.1 nodup).2.1
              simp [none, first, show reader ∈ rest from waits] at pending
            exact logs.exists_cycle assignment none (by simp [first])
              (by simp [first, show reader ∈ rest from waits]) ne reads
          · exact onCycles entry old
  obtain ⟨log, logs, treats, onCycles⟩ := invariant
  refine ⟨fun cycle isolated => ?_, onCycles⟩
  rcases treats cycle isolated with ⟨waiting, -⟩ | ⟨-, once⟩
  · exfalso
    obtain ⟨v, onCycle⟩ : ∃ v, v ∈ cycle := by
      induction cycle using Quotient.inductionOn' with
      | _ vars =>
        cases vars with
        | nil => exact absurd isolated.long (by simp)
        | cons v => exact ⟨v, .head _⟩
    obtain ⟨pair, listed, -, -, onCycle⟩ := isolated.exists_copy onCycle
    have waits := waiting pair listed onCycle
    rw [(run_finished p facts b pairs stack copies).2] at waits
    exact absurd waits (List.not_mem_nil)
  · exact once

end Schedule

end Reflow
